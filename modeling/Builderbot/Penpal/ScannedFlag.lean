import Builderbot.Penpal.CacheUpdates

/-!
# The scanned flag

`EnsureProjectScanned` of `apps/penpal/internal/cache/cache.go` scans a project that is not marked as scanned.
Here the operations of the cache run one after another, each to its end. Beside the cache, `lastScan`
remembers for a project the result of its last scan since it was listed, with the changes that `UpsertFile`
and `RemoveFile` made to it later. The flag is right if a listed project that has it has such a result, and
the result is what the cache holds.
-/

namespace Builderbot.Penpal

open Git (Text)

structure TrackedCache where
  cache : Cache := {}
  lastScan : Text → Option (List FileInfo) := fun _ => none

inductive CacheCommand where
  | setProjects (projects : List Project)
  | addProject (project : Project)
  | removeProject (name : Text)
  | rescanWith (projects : List Project)
  | ensureProjectScanned (name : Text)
  | refreshProject (name : Text)
  | upsertFile (name : Text) (project : Project) (path : Path)
  | removeFile (name : Text) (path : RelPath)

/-- A command, the files that it finds on the disk, and the room in the arrays that it makes. -/
structure CacheStep where
  command : CacheCommand
  disk : Disk
  spare : ℕ := 0

variable {name : Text} {project : Project} {names : List Text} {cache : Cache}

namespace TrackedCache

variable (getSourceType : Text → Option SourceType) (s : TrackedCache)

/-- The projects are listed anew. One that was not listed before has not been scanned. -/
def relist (cache : Cache) : TrackedCache where
  cache
  lastScan := fun name => if cache.findProject name = s.cache.findProject name then s.lastScan name else none

/-- `RefreshProject`. -/
def refreshProject (disk : Disk) (spare : ℕ) (name : Text) : TrackedCache :=
  match s.cache.findProject name with
  | none => s
  | some project =>
    let files := freshScan getSourceType disk project
    { cache := (s.cache.setProjectFiles name files spare).markScanned name
      lastScan := Function.update s.lastScan name (some files) }

/-- `EnsureProjectScanned`. The flag is set also for a project that is not listed. -/
def ensureProjectScanned (disk : Disk) (spare : ℕ) (name : Text) : TrackedCache :=
  if s.cache.isScanned name then s
  else refreshProject getSourceType { s with cache := s.cache.markScanned name } disk spare name

/-- The projects that `RescanWith` scans. -/
def toScan (projects : List Project) : List Text :=
  (projects.filter s.cache.snapshot.needsScan).map Project.qualifiedName

/-- `RescanWith` before it scans. -/
def replaceProjects (projects : List Project) : TrackedCache :=
  let snapshot := s.cache.snapshot
  let listed := s.relist (s.cache.setProjects projects)
  let kept := (projects.filter fun p => !snapshot.needsScan p).map Project.qualifiedName
  let restored := kept.foldl (fun c name => c.restore name (snapshot.files name)) listed.cache
  { listed with cache := restored.cleanUp snapshot (projects.map Project.qualifiedName) }

/-- `RescanWith`. -/
def rescanWith (disk : Disk) (spare : ℕ) (projects : List Project) : TrackedCache :=
  (s.toScan projects).foldl (fun t name => refreshProject getSourceType t disk spare name)
    (s.replaceProjects projects)

/-- `UpsertFile`. -/
def upsertFile (disk : Disk) (spare : ℕ) (name : Text) (project : Project) (path : Path) : TrackedCache :=
  match disk.stat path with
  | none => s
  | some modTime =>
    let file := rel project.path path
    let title := disk.title path
    let resolved := resolveNow getSourceType disk project path
    { cache := s.cache.upsertFile name file modTime title resolved spare
      lastScan := Function.update s.lastScan name
        ((s.lastScan name).map (Cache.upserted file modTime title resolved)) }

/-- `RemoveFile`. -/
def removeFile (name : Text) (path : RelPath) : TrackedCache where
  cache := s.cache.removeFile name path
  lastScan := Function.update s.lastScan name
    ((s.lastScan name).map fun files => files.filter fun file => file.fullPath ≠ path)

def step (e : CacheStep) : Option TrackedCache :=
  some <| match e.command with
    | .setProjects projects => s.relist (s.cache.setProjects projects)
    | .addProject project => s.relist (s.cache.addProject project)
    | .removeProject name => s.relist (s.cache.removeProject name)
    | .rescanWith projects => s.rescanWith getSourceType e.disk e.spare projects
    | .ensureProjectScanned name => s.ensureProjectScanned getSourceType e.disk e.spare name
    | .refreshProject name => s.refreshProject getSourceType e.disk e.spare name
    | .upsertFile name project path => s.upsertFile getSourceType e.disk e.spare name project path
    | .removeFile name path => s.removeFile name path

/-! ## When the flag is right -/

/-- A project that is listed and marked as scanned has been scanned since, except for some. -/
def TruthfulExcept (names : List Text) : Prop :=
  ∀ name project, name ∉ names → s.cache.findProject name = some project → s.cache.isScanned name = true →
    ∃ files, s.lastScan name = some files ∧ (s.cache.fileList name).Perm files

/-- A project that is listed and marked as scanned has been scanned since. -/
def Truthful : Prop := s.TruthfulExcept []

/-- A project that is listed now and was not before is not marked as scanned. -/
def ListsUnscanned (cache : Cache) : Prop :=
  ∀ project ∈ cache.projects,
    cache.findProject project.qualifiedName = s.cache.findProject project.qualifiedName ∨
      s.cache.isScanned project.qualifiedName = false

/-- The command lists no project under a flag that is set already. -/
def Safe (e : CacheStep) : Prop :=
  match e.command with
  | .setProjects projects => s.ListsUnscanned (s.cache.setProjects projects)
  | .addProject project => s.ListsUnscanned (s.cache.addProject project)
  -- only one of several projects of the same name is removed, but the files are those of all
  | .removeProject name =>
    (s.cache.removeProject name).findProject name = none ∨ s.cache.isScanned name = false
  -- a project that is kept is the one that was listed
  | .rescanWith projects =>
    ∀ project ∈ projects, project.qualifiedName ∈ s.toScan projects ∨
      (s.cache.setProjects projects).findProject project.qualifiedName =
        s.cache.findProject project.qualifiedName
  | .ensureProjectScanned _ | .refreshProject _ | .upsertFile _ _ _ | .removeFile _ _ => True

variable {getSourceType s}

/-! ### Listing -/

/-- A project found under a name has it. -/
theorem mem_of_findProject {c : Cache}
    (h : c.findProject name = some project) : project ∈ c.projects ∧ project.qualifiedName = name :=
  ⟨List.mem_of_find?_eq_some h, by simpa using List.find?_some h⟩

/-- A new listing is right about what was listed before. -/
theorem TruthfulExcept.relist (h : s.Truthful)
    (hflags : ∀ name, cache.isScanned name = true → s.cache.isScanned name = true)
    (hfiles : ∀ name project, name ∉ names → cache.findProject name = some project →
      cache.isScanned name = true →
      cache.findProject name = s.cache.findProject name ∧ cache.fileList name = s.cache.fileList name) :
    (s.relist cache).TruthfulExcept names := by
  intro name project hname hlisted hscanned
  obtain ⟨hsame, hlist⟩ := hfiles name project hname hlisted hscanned
  obtain ⟨files, hlast, hperm⟩ :=
    h name project List.not_mem_nil (hsame ▸ hlisted) (hflags name hscanned)
  refine ⟨files, ?_, ?_⟩
  · show (if cache.findProject name = s.cache.findProject name then s.lastScan name else none) = _
    rw [if_pos hsame, hlast]
  · show (cache.fileList name).Perm files
    rw [hlist]
    exact hperm

theorem ListsUnscanned.same (h : s.ListsUnscanned cache)
    (hlisted : cache.findProject name = some project) (hscanned : s.cache.isScanned name = true) :
    cache.findProject name = s.cache.findProject name := by
  obtain ⟨hmem, rfl⟩ := mem_of_findProject hlisted
  refine (h project hmem).resolve_right ?_
  rw [hscanned]
  exact Bool.noConfusion

/-! ### Scanning -/

theorem TruthfulExcept.mono {more : List Text} (h : s.TruthfulExcept names) (hsub : names ⊆ more) :
    s.TruthfulExcept more := fun name project hname => h name project fun hmem => hname (hsub hmem)

/-- A scan settles the flag of its project. -/
theorem TruthfulExcept.refreshProject (hheap : s.cache.HeapOk)
    (h : s.TruthfulExcept (name :: names)) (disk : Disk) (spare : ℕ) :
    (s.refreshProject getSourceType disk spare name).cache.HeapOk ∧
      (s.refreshProject getSourceType disk spare name).TruthfulExcept names := by
  rw [TrackedCache.refreshProject]
  split
  · rename_i hnone
    refine ⟨hheap, fun other project hother hlisted => h other project (fun hmem => ?_) hlisted⟩
    rcases List.mem_cons.mp hmem with rfl | hmem
    · rw [hnone] at hlisted
      cases hlisted
    · exact hother hmem
  · rename_i project hproject
    have hstore := Cache.allocate_replaces hheap name (freshScan getSourceType disk project) spare
    have hlist : ((s.cache.setProjectFiles name (freshScan getSourceType disk project) spare).markScanned
        name).fileList = (s.cache.allocate name (freshScan getSourceType disk project) spare).fileList := by
      rw [Cache.fileList_markScanned, Cache.setProjectFiles, Cache.fileList_markScanned]
    refine ⟨(hstore.heap.markScanned name).markScanned name, fun other listed hother hlisted hscanned => ?_⟩
    by_cases hname : other = name
    · subst hname
      refine ⟨_, Function.update_self .., ?_⟩
      show (((s.cache.setProjectFiles other _ spare).markScanned other).fileList other).Perm _
      rw [hlist, hstore.self]
    -- the flag of another project was set before, and its list has not changed
    · have hscanned' : s.cache.isScanned other = true := by
        have hmark : ((s.cache.setProjectFiles name (freshScan getSourceType disk project) spare).markScanned
          name).isScanned other = true := hscanned
        rw [Cache.setProjectFiles, Cache.isScanned_markScanned, Cache.isScanned_markScanned,
          decide_eq_false hname, Bool.false_or, Bool.false_or] at hmark
        exact hmark
      obtain ⟨files, hlast, hperm⟩ := h other listed (by simpa [hname] using hother) hlisted hscanned'
      refine ⟨files, ?_, ?_⟩
      · show Function.update s.lastScan name _ other = some files
        rw [Function.update_of_ne hname, hlast]
      · show (((s.cache.setProjectFiles name _ spare).markScanned name).fileList other).Perm _
        rw [hlist, hstore.other other hname]
        exact hperm

/-- `EnsureProjectScanned` marks a project and scans it. -/
theorem Truthful.ensureProjectScanned (hheap : s.cache.HeapOk) (h : s.Truthful) (disk : Disk) (spare : ℕ)
    (name : Text) :
    (s.ensureProjectScanned getSourceType disk spare name).cache.HeapOk ∧
      (s.ensureProjectScanned getSourceType disk spare name).Truthful := by
  rw [TrackedCache.ensureProjectScanned]
  split
  · exact ⟨hheap, h⟩
  · refine TruthfulExcept.refreshProject (s := { s with cache := s.cache.markScanned name })
      (hheap.markScanned name) (fun other project hother hlisted hscanned => ?_) disk spare
    have hname : other ≠ name := fun heq => hother (heq ▸ List.mem_cons_self)
    have hscanned' : s.cache.isScanned other = true := by
      have hmark : (s.cache.markScanned name).isScanned other = true := hscanned
      rw [Cache.isScanned_markScanned, decide_eq_false hname, Bool.false_or] at hmark
      exact hmark
    obtain ⟨files, hlast, hperm⟩ := h other project List.not_mem_nil hlisted hscanned'
    refine ⟨files, hlast, ?_⟩
    show ((s.cache.markScanned name).fileList other).Perm files
    rw [Cache.fileList_markScanned]
    exact hperm

/-! ### `RescanWith` -/

/-- The projects that are kept are restored as they are. -/
theorem restore_kept {c : Cache} (hflags : ∀ name ∈ names, s.cache.isScanned name = true)
    (hlisted : ∀ name ∈ names, (s.cache.findProject name).isSome = true)
    (hfiles : c.files = s.cache.files) (hscanned : c.isScanned = s.cache.isScanned) :
    let restored := names.foldl (fun c name => c.restore name (s.cache.snapshot.files name)) c
    restored.files = s.cache.files ∧ restored.isScanned = s.cache.isScanned ∧ restored.heap = c.heap ∧
      restored.next = c.next ∧ restored.projects = c.projects := by
  induction names generalizing c with
  | nil => exact ⟨hfiles, hscanned, rfl, rfl, rfl⟩
  | cons name names ih =>
    obtain ⟨hflag, hflags⟩ := List.forall_mem_cons.mp hflags
    obtain ⟨hname, hlisted⟩ := List.forall_mem_cons.mp hlisted
    have hslice : c.files name = (s.cache.snapshot.files name).getD {} := by
      show c.files name =
        (if (s.cache.findProject name).isSome then s.cache.projectFiles.lookup name else none).getD {}
      rw [hfiles, if_pos hname]
      rfl
    refine ih (c := c.restore name (s.cache.snapshot.files name)) hflags hlisted ?_ ?_
    · rw [Cache.files_restore hslice, hfiles]
    · funext other
      show (c.markScanned name).isScanned other = _
      rw [Cache.isScanned_markScanned, hscanned]
      by_cases hother : other = name
      · rw [hother, hflag, Bool.or_true]
      · rw [decide_eq_false hother, Bool.false_or]

theorem needsScan_eq_false (h : s.cache.snapshot.needsScan project = false) :
    s.cache.isScanned project.qualifiedName = true ∧
      (s.cache.findProject project.qualifiedName).isSome = true := by
  rw [Cache.Snapshot.needsScan] at h
  split at h
  · cases h
  · rename_i prev hprev
    rw [Bool.or_eq_false_iff, Bool.not_eq_false'] at h
    refine ⟨h.1, ?_⟩
    have hmem : prev ∈ s.cache.projects := by
      have hrev := List.mem_of_find?_eq_some hprev
      exact List.mem_reverse.mp hrev
    have hname : prev.qualifiedName = project.qualifiedName := by simpa using List.find?_some hprev
    rw [Cache.findProject, List.find?_isSome]
    exact ⟨prev, hmem, decide_eq_true hname⟩

theorem Truthful.replaceProjects (hheap : s.cache.HeapOk) (h : s.Truthful) {projects : List Project}
    (hsafe : ∀ project ∈ projects, project.qualifiedName ∈ s.toScan projects ∨
      (s.cache.setProjects projects).findProject project.qualifiedName =
        s.cache.findProject project.qualifiedName) :
    (s.replaceProjects projects).cache.HeapOk ∧
      (s.replaceProjects projects).TruthfulExcept (s.toScan projects) := by
  -- only what is not to be scanned is restored, and that had been scanned
  have hkept : ∀ name ∈ (projects.filter fun p => !s.cache.snapshot.needsScan p).map Project.qualifiedName,
      s.cache.isScanned name = true ∧ (s.cache.findProject name).isSome = true := by
    intro name hname
    obtain ⟨project, hproject, rfl⟩ := List.mem_map.mp hname
    exact needsScan_eq_false (by simpa using (List.mem_filter.mp hproject).2)
  let restored := ((projects.filter fun p => !s.cache.snapshot.needsScan p).map Project.qualifiedName).foldl
    (fun c name => c.restore name (s.cache.snapshot.files name)) (s.cache.setProjects projects)
  obtain ⟨hfiles, hscanned, hheap', hnext, hprojects⟩ : restored.files = s.cache.files ∧
      restored.isScanned = s.cache.isScanned ∧ restored.heap = s.cache.heap ∧
      restored.next = s.cache.next ∧ restored.projects = projects :=
    restore_kept (c := s.cache.setProjects projects) (fun name hname => (hkept name hname).1)
      (fun name hname => (hkept name hname).2) rfl rfl
  have hrestoredHeap : restored.HeapOk := hheap.of_files hfiles hheap' hnext
  let cleaned := restored.cleanUp s.cache.snapshot (projects.map Project.qualifiedName)
  have hfind : cleaned.findProject = (s.cache.setProjects projects).findProject := by
    funext name
    show restored.projects.find? _ = _
    rw [hprojects]
    rfl
  have hrelist : ({ s.relist (s.cache.setProjects projects) with cache := cleaned } : TrackedCache) =
      s.relist cleaned := by
    rw [relist, relist, hfind]
  refine ⟨hrestoredHeap.cleanUp _ _, ?_⟩
  show TruthfulExcept ({ s.relist (s.cache.setProjects projects) with cache := cleaned } : TrackedCache) _
  rw [hrelist]
  -- what still counts as scanned after the clean-up is not forgotten
  have hflags : ∀ name, cleaned.isScanned name = true →
      s.cache.snapshot.forgets (projects.map Project.qualifiedName) name = false ∧
        s.cache.isScanned name = true := by
    intro name hscanned'
    rw [Cache.isScanned_cleanUp, Bool.and_eq_true, Bool.not_eq_true', hscanned] at hscanned'
    exact hscanned'
  refine TruthfulExcept.relist h (fun name hname => (hflags name hname).2)
    fun name project hname hlisted hscanned' => ?_
  rw [hfind] at hlisted ⊢
  obtain ⟨hmem, rfl⟩ := mem_of_findProject hlisted
  refine ⟨(hsafe project hmem).resolve_left hname, ?_⟩
  show restored.content (cleaned.files project.qualifiedName) = _
  rw [Cache.files_cleanUp, (hflags _ hscanned').1]
  exact congrFun (Cache.fileList_of_files hfiles hheap') project.qualifiedName

theorem Truthful.rescanWith (hheap : s.cache.HeapOk) (h : s.Truthful) {projects : List Project}
    (hsafe : ∀ project ∈ projects, project.qualifiedName ∈ s.toScan projects ∨
      (s.cache.setProjects projects).findProject project.qualifiedName =
        s.cache.findProject project.qualifiedName) (disk : Disk) (spare : ℕ) :
    (s.rescanWith getSourceType disk spare projects).cache.HeapOk ∧
      (s.rescanWith getSourceType disk spare projects).Truthful := by
  -- each scan takes one project off the list of those that may be wrong
  have hscans : ∀ (names : List Text) (t : TrackedCache), t.cache.HeapOk → t.TruthfulExcept names →
      (names.foldl (fun t name => t.refreshProject getSourceType disk spare name) t).cache.HeapOk ∧
        (names.foldl (fun t name => t.refreshProject getSourceType disk spare name) t).Truthful := by
    intro names
    induction names with
    | nil => exact fun t ht htrue => ⟨ht, htrue⟩
    | cons name names ih =>
      intro t ht htrue
      obtain ⟨ht', htrue'⟩ := TruthfulExcept.refreshProject ht htrue disk spare
      exact ih _ ht' htrue'
  obtain ⟨hheap', htrue⟩ := h.replaceProjects hheap hsafe
  exact hscans (s.toScan projects) _ hheap' htrue

/-! ### Single files -/

theorem perm_upserted_of_perm {path : RelPath} {modTime : ℤ} {title : Text}
    {resolved files files' : List FileInfo} (h : files.Perm files') :
    (Cache.upserted path modTime title resolved files).Perm
      (Cache.upserted path modTime title resolved files') := by
  have hany : (files.any fun file => file.fullPath = path) = files'.any fun file => file.fullPath = path :=
    h.any_eq
  rw [Cache.upserted, Cache.upserted, hany]
  split
  · exact h.map _
  · exact h.append_right _

/-- A change of the list of a project that is made to the result of its scan as well. -/
theorem Truthful.of_replaces (h : s.Truthful) {files : List FileInfo}
    {edit : List FileInfo → List FileInfo} (hreplaces : Cache.Replaces s.cache cache name files)
    (hedit : ∀ list, (s.cache.fileList name).Perm list → files.Perm (edit list)) :
    Truthful ⟨cache, Function.update s.lastScan name ((s.lastScan name).map edit)⟩ := by
  intro other project _ hlisted hscanned
  have hlisted' : s.cache.findProject other = some project := by
    rw [← hlisted, Cache.findProject, Cache.findProject, hreplaces.projects]
  have hscanned' : s.cache.isScanned other = true := by
    rw [← hscanned, Cache.isScanned, Cache.isScanned, hreplaces.scanned]
  obtain ⟨list, hlast, hperm⟩ := h other project List.not_mem_nil hlisted' hscanned'
  by_cases hother : other = name
  · subst hother
    refine ⟨edit list, ?_, ?_⟩
    · show Function.update s.lastScan other _ other = _
      rw [Function.update_self, hlast]
      rfl
    · show (cache.fileList other).Perm _
      rw [hreplaces.self]
      exact hedit list hperm
  · refine ⟨list, ?_, ?_⟩
    · show Function.update s.lastScan name _ other = _
      rw [Function.update_of_ne hother, hlast]
    · show (cache.fileList other).Perm _
      rw [hreplaces.other other hother]
      exact hperm

theorem Truthful.upsertFile (hheap : s.cache.HeapOk) (h : s.Truthful) (disk : Disk) (spare : ℕ) (name : Text)
    (project : Project) (path : Path) :
    (s.upsertFile getSourceType disk spare name project path).cache.HeapOk ∧
      (s.upsertFile getSourceType disk spare name project path).Truthful := by
  rw [TrackedCache.upsertFile]
  split
  · exact ⟨hheap, h⟩
  · rename_i modTime _
    obtain ⟨files, hreplaces, hperm⟩ := Cache.upsertFile_replaces hheap name (rel project.path path) modTime
      (disk.title path) (resolveNow getSourceType disk project path) spare
    refine ⟨hreplaces.heap, h.of_replaces hreplaces fun list hlist => ?_⟩
    exact hperm.trans (perm_upserted_of_perm hlist)

theorem Truthful.removeFile (hheap : s.cache.HeapOk) (h : s.Truthful) (name : Text) (path : RelPath) :
    (s.removeFile name path).cache.HeapOk ∧ (s.removeFile name path).Truthful := by
  have hreplaces := Cache.removeFile_replaces hheap name path
  exact ⟨hreplaces.heap, h.of_replaces hreplaces fun list hlist => hlist.filter _⟩

/-! ## Sequences of operations -/

theorem findProject_removeProject_ne (c : Cache) {other : Text} (hne : other ≠ name) :
    (c.removeProject name).findProject other = c.findProject other := by
  show (c.projects.eraseP fun p => decide (p.qualifiedName = name)).find? _ = c.projects.find? _
  induction c.projects with
  | nil => rfl
  | cons p projects ih =>
    by_cases hp : p.qualifiedName = name
    · have hother : ¬ p.qualifiedName = other := fun heq => hne (heq.symm.trans hp)
      rw [List.eraseP_cons, decide_eq_true hp, cond_true, List.find?_cons, decide_eq_false hother]
    · rw [List.eraseP_cons, decide_eq_false hp, cond_false, List.find?_cons, List.find?_cons, ih]

theorem files_removeProject (c : Cache) (name other : Text) :
    (c.removeProject name).files other = if other = name then {} else c.files other := by
  rw [Cache.files, Cache.removeProject]
  split
  · rename_i heq
    rw [heq, AList.lookup_erase]
    rfl
  · rename_i hne
    rw [AList.lookup_erase_ne hne]
    rfl

theorem HeapOk.removeProject {c : Cache} (h : c.HeapOk) (name : Text) : (c.removeProject name).HeapOk := by
  refine ⟨h.empty, h.pos, fun other => ?_, fun other third => ?_⟩
  · rw [files_removeProject]
    split
    · exact ⟨h.pos, Nat.zero_le _⟩
    · exact h.bounded other
  · rw [files_removeProject, files_removeProject]
    split
    · exact fun _ hne => absurd rfl hne
    · split
      · exact fun heq hne => absurd heq hne
      · exact h.separate other third

theorem Truthful.removeProject (hheap : s.cache.HeapOk) (h : s.Truthful)
    (hsafe : (s.cache.removeProject name).findProject name = none ∨ s.cache.isScanned name = false) :
    (s.relist (s.cache.removeProject name)).cache.HeapOk ∧
      (s.relist (s.cache.removeProject name)).Truthful := by
  refine ⟨HeapOk.removeProject hheap name, TruthfulExcept.relist h (fun _ => id)
    fun other project _ hlisted hscanned => ?_⟩
  have hother : other ≠ name := by
    rintro rfl
    have hscanned' : s.cache.isScanned other = true := hscanned
    rcases hsafe with hnone | hflag
    · rw [hlisted] at hnone
      cases hnone
    · rw [hscanned'] at hflag
      cases hflag
  refine ⟨findProject_removeProject_ne s.cache hother, ?_⟩
  show s.cache.content ((s.cache.removeProject name).files other) = _
  rw [files_removeProject, if_neg hother]
  rfl

/-- A new listing of which nothing is scanned already. -/
theorem Truthful.relist (h : s.Truthful) (hsafe : s.ListsUnscanned cache)
    (hflags : cache.isScanned = s.cache.isScanned) (hlist : cache.fileList = s.cache.fileList) :
    (s.relist cache).Truthful := by
  refine TruthfulExcept.relist h (fun name hname => hflags ▸ hname) fun name project _ hlisted hscanned => ?_
  rw [hflags] at hscanned
  exact ⟨hsafe.same hlisted hscanned, congrFun hlist name⟩

theorem addProject_projects (c : Cache) (project : Project) :
    ∃ projects, c.addProject project = c.setProjects projects := by
  rw [Cache.addProject]
  split
  · exact ⟨_, rfl⟩
  · exact ⟨_, rfl⟩

/-- What every sequence of safe operations keeps up. -/
structure Sound (s : TrackedCache) : Prop where
  heap : s.cache.HeapOk
  truthful : s.Truthful

theorem sound_new : Sound {} := by
  refine ⟨Cache.heapOk_new, ?_⟩
  intro name project _ hlisted
  cases hlisted

theorem Sound.step {t : TrackedCache} {e : CacheStep} (hs : s.Sound) (hsafe : s.Safe e)
    (hstep : s.step getSourceType e = some t) : t.Sound := by
  suffices ht : t.cache.HeapOk ∧ t.Truthful from ⟨ht.1, ht.2⟩
  obtain ⟨hheap, h⟩ := hs
  obtain ⟨command, disk, spare⟩ := e
  obtain rfl := Option.some.inj hstep
  cases command with
  | setProjects projects => exact ⟨hheap.of_files rfl rfl rfl, h.relist hsafe rfl rfl⟩
  | addProject project =>
    have hsafe' : s.ListsUnscanned (s.cache.addProject project) := hsafe
    show (s.relist (s.cache.addProject project)).cache.HeapOk ∧ (s.relist (s.cache.addProject project)).Truthful
    obtain ⟨projects, hprojects⟩ := addProject_projects s.cache project
    rw [hprojects] at hsafe' ⊢
    exact ⟨hheap.of_files rfl rfl rfl, h.relist hsafe' rfl rfl⟩
  | removeProject name => exact h.removeProject hheap hsafe
  | rescanWith projects => exact h.rescanWith hheap hsafe disk spare
  | ensureProjectScanned name => exact h.ensureProjectScanned hheap disk spare name
  | refreshProject name =>
    refine TruthfulExcept.refreshProject hheap (TruthfulExcept.mono h ?_) disk spare
    exact List.nil_subset _
  | upsertFile name project path => exact h.upsertFile hheap disk spare name project path
  | removeFile name path => exact h.removeFile hheap name path

/-- A project that has not been scanned since it was listed is scanned when it is opened. -/
theorem Truthful.scans_first (h : s.Truthful)
    (hlisted : s.cache.findProject name = some project) (hnone : s.lastScan name = none) (disk : Disk)
    (spare : ℕ) :
    (s.ensureProjectScanned getSourceType disk spare name).lastScan name =
      some (freshScan getSourceType disk project) := by
  have hflag : s.cache.isScanned name = false := by
    by_contra hscanned
    rw [Bool.not_eq_false] at hscanned
    obtain ⟨files, hlast, -⟩ := h name project List.not_mem_nil hlisted hscanned
    rw [hnone] at hlast
    cases hlast
  have hlisted' : (s.cache.markScanned name).findProject name = some project := hlisted
  rw [TrackedCache.ensureProjectScanned, hflag, TrackedCache.refreshProject]
  simp only [Bool.false_eq_true, if_false, hlisted', Function.update_self]

/-- After any sequence of operations that list no project under a flag that is set already, the flags are
right, and `EnsureProjectScanned` does not leave out the first scan of a project. -/
theorem run_truthful (steps : List CacheStep) (t : TrackedCache)
    (hsafe : Along (TrackedCache.step getSourceType) Safe {} steps)
    (hrun : run (TrackedCache.step getSourceType) {} steps = some t) :
    t.Truthful ∧
      ∀ name project disk spare, t.cache.findProject name = some project → t.lastScan name = none →
        (t.ensureProjectScanned getSourceType disk spare name).lastScan name =
          some (freshScan getSourceType disk project) := by
  have hsound : t.Sound :=
    run_invariant_along (fun _ _ _ h hs hstep => h.step hs hstep) sound_new hsafe hrun
  refine ⟨hsound.truthful, fun name project disk spare hlisted hnone => ?_⟩
  exact hsound.truthful.scans_first hlisted hnone disk spare

instance (cache : Cache) : Decidable (s.ListsUnscanned cache) :=
  inferInstanceAs (Decidable (∀ project ∈ cache.projects, _ ∨ _))

instance (e : CacheStep) : Decidable (s.Safe e) :=
  match h : e.command with
  | .setProjects projects =>
    decidable_of_iff (s.ListsUnscanned (s.cache.setProjects projects)) (by simp only [Safe, h])
  | .addProject project =>
    decidable_of_iff (s.ListsUnscanned (s.cache.addProject project)) (by simp only [Safe, h])
  | .removeProject name =>
    decidable_of_iff ((s.cache.removeProject name).findProject name = none ∨
      s.cache.isScanned name = false) (by simp only [Safe, h])
  | .rescanWith projects =>
    decidable_of_iff (∀ project ∈ projects, (s.toScan projects).contains project.qualifiedName = true ∨
      (s.cache.setProjects projects).findProject project.qualifiedName =
        s.cache.findProject project.qualifiedName) (by simp only [Safe, h, List.contains_iff_mem])
  | .ensureProjectScanned _ | .refreshProject _ | .upsertFile _ _ _ | .removeFile _ _ =>
    .isTrue (by simp only [Safe, h])

/-- A project with one file. -/
def sampleProjectDisk : Disk where
  fs := .dir (.cons ['p'] (.dir (.cons ['a', '.', 'm', 'd'] (.file ⟨[], 1⟩) .nil)) .nil)
  rules := ⟨false, fun _ => .unmatched⟩

def sampleAdded : Project := ⟨['p'], [['p']], [⟨['d'], .tree, ['d'], some [['p']], [], false⟩], []⟩

def sampleSteps (commands : List CacheCommand) : List CacheStep :=
  commands.map fun command => { command, disk := sampleProjectDisk }

/-- A project is added, opened, dropped by `RescanWith`, and added again. -/
theorem run_truthful_readded :
    ∃ t, run (TrackedCache.step fun _ => none) {} (sampleSteps [.addProject sampleAdded,
        .ensureProjectScanned ['p'], .rescanWith [], .addProject sampleAdded]) = some t ∧
      t.Truthful ∧ t.cache.findProject ['p'] = some sampleAdded ∧
      (t.ensureProjectScanned (fun _ => none) sampleProjectDisk 0 ['p']).lastScan ['p'] =
        some (freshScan (fun _ => none) sampleProjectDisk sampleAdded) := by
  obtain ⟨t, hrun, ht⟩ : ∃ t, run (TrackedCache.step fun _ => none) {} (sampleSteps
      [.addProject sampleAdded, .ensureProjectScanned ['p'], .rescanWith [], .addProject sampleAdded]) = some t ∧
      (decide (t.cache.findProject ['p'] = some sampleAdded) && decide (t.lastScan ['p'] = none)) = true :=
    exists_run_of_any (by decide)
  rw [Bool.and_eq_true, decide_eq_true_eq, decide_eq_true_eq] at ht
  obtain ⟨htrue, hfirst⟩ := run_truthful _ t (by decide) hrun
  exact ⟨t, hrun, htrue, ht.1, hfirst ['p'] sampleAdded sampleProjectDisk 0 ht.1 ht.2⟩

/-- A listed project with the flag set that was never scanned, in a form that can be evaluated. -/
def sampleUnscanned (t : TrackedCache) : Bool :=
  decide (t.cache.findProject ['p'] = some sampleAdded) && t.cache.isScanned ['p'] &&
    decide (t.lastScan ['p'] = none) && decide (t.cache.fileList ['p'] = []) &&
    decide ((t.ensureProjectScanned (fun _ => none) sampleProjectDisk 0 ['p']).cache.fileList ['p'] = [])

theorem exists_not_truthful {steps : List CacheStep}
    (h : (run (TrackedCache.step fun _ => none) {} steps).any sampleUnscanned = true) :
    ∃ t, run (TrackedCache.step fun _ => none) {} steps = some t ∧ ¬ t.Truthful ∧
      t.cache.fileList ['p'] = [] ∧
      (t.ensureProjectScanned (fun _ => none) sampleProjectDisk 0 ['p']).cache.fileList ['p'] = [] := by
  obtain ⟨t, hrun, ht⟩ := exists_run_of_any h
  simp only [sampleUnscanned, Bool.and_eq_true, decide_eq_true_eq] at ht
  obtain ⟨⟨⟨⟨hlisted, hscanned⟩, hlast⟩, hfiles⟩, hopened⟩ := ht
  refine ⟨t, hrun, fun htrue => ?_, hfiles, hopened⟩
  obtain ⟨files, hsome, -⟩ := htrue ['p'] sampleAdded List.not_mem_nil hlisted hscanned
  rw [hlast] at hsome
  cases hsome

/-- `RemoveProject` leaves the flag: when the project is added again, it has no files, and opening it does not
scan it. So it is if the name was opened before the project was added. -/
theorem flag_outlives_project :
    (∃ t, run (TrackedCache.step fun _ => none) {} (sampleSteps [.addProject sampleAdded,
        .ensureProjectScanned ['p'], .removeProject ['p'], .addProject sampleAdded]) = some t ∧
      ¬ t.Truthful ∧ t.cache.fileList ['p'] = [] ∧
      (t.ensureProjectScanned (fun _ => none) sampleProjectDisk 0 ['p']).cache.fileList ['p'] = []) ∧
    (∃ t, run (TrackedCache.step fun _ => none) {} (sampleSteps [.ensureProjectScanned ['p'],
        .addProject sampleAdded]) = some t ∧
      ¬ t.Truthful ∧ t.cache.fileList ['p'] = [] ∧
      (t.ensureProjectScanned (fun _ => none) sampleProjectDisk 0 ['p']).cache.fileList ['p'] = []) ∧
    (freshScan (fun _ => none) sampleProjectDisk sampleAdded).length = 1 := by
  refine ⟨exists_not_truthful ?_, exists_not_truthful ?_, ?_⟩
  · decide
  · decide
  · decide

end TrackedCache

end Builderbot.Penpal
