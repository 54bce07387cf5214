import Builderbot.Lib.Run
import Builderbot.Penpal.FileCache

/-!
# Concurrent updates of the file cache

`RefreshProject`, `RescanWith`, `EnsureProjectScanned` and `UpsertFile` of
`apps/penpal/internal/cache/cache.go` hold the lock only for a moment: they read the file system without it,
and `RescanWith` takes the lock several times. A call in progress is modelled by what it has read so far, and
a step is one of its critical sections or one of its readings. `RemoveFile` is a single section.

A scan reads the files one after another, each of them in every source that it walks. What it has read of a
file is stale once the file changes. `owed` says for which files of a project an update is still to come: it
is set when the file changes, and cleared by the `UpsertFile` or `RemoveFile` that comes after the change.
-/

namespace Builderbot.Penpal

open Git (Text)

/-! ## The file system -/

structure Disk where
  fs : FileTree FileData
  rules : IgnoreRules
  /-- The modification time of a directory. -/
  dirModTime : Path → ℤ := fun _ => 0

/-- The modification time that `os.Stat` gives. -/
def Disk.stat (disk : Disk) (path : Path) : Option ℤ :=
  match disk.fs.at? path with
  | some (.file data) => some data.modTime
  | some (.dir _) => some (disk.dirModTime path)
  | none => none

/-- `extractTitle`, which gives nothing for what cannot be read. -/
def Disk.title (disk : Disk) (path : Path) : Text :=
  match disk.fs.at? path with
  | some (.file data) => extractTitle data.content
  | _ => []

/-- The source and the file of an entry. -/
def FileInfo.key (file : FileInfo) : Text × RelPath := (file.source, file.fullPath)

variable (getSourceType : Text → Option SourceType)

/-- The files that a scan of the project gives. -/
def freshScan (disk : Disk) (project : Project) : List FileInfo :=
  filterManualFileInfos project (scanProjectSources disk.fs disk.rules getSourceType project)

/-- The entries that `UpsertFile` resolves. -/
def resolveNow (disk : Disk) (project : Project) (path : Path) : List FileInfo :=
  filterManualFileInfos project (resolveFileInfo disk.fs disk.rules getSourceType project path)

/-- What a scan finds where it reads, unless it was there before. -/
def found (disk : Disk) (project : Project) (seen : List (Text × RelPath))
    (reads : Text × RelPath → Bool) : List FileInfo :=
  (freshScan getSourceType disk project).filter fun file => reads file.key && !seen.contains file.key

/-! ## The calls -/

/-- The arguments of `UpsertFile`, and whether the file has changed since it was read. -/
structure Upsert where
  name : Text
  project : Project
  path : Path
  stale : Bool := false

/-- The path under which the cache knows the file. -/
def Upsert.relPath (u : Upsert) : RelPath := rel u.project.path u.path

def Upsert.touch (path : Path) (u : Upsert) : Upsert := { u with stale := u.stale || u.path = path }

inductive CacheCall where
  /-- `RefreshProject` is to look the project up. -/
  | refresh (name : Text)
  | scanning (name : Text) (project : Project) (seen : List (Text × RelPath)) (stale : List RelPath)
      (result : List FileInfo)
  | scanned (name : Text) (project : Project) (stale : List RelPath) (result : List FileInfo)
  /-- The last section of `RefreshProject`. -/
  | marking (name : Text)
  | ensure (name : Text)
  | rescan (projects : List Project)
  | rescanSet (projects : List Project) (snapshot : Cache.Snapshot)
  /-- `RescanWith` restores the files of some projects, and will scan others. -/
  | rescanKeep (kept toScan : List Text) (snapshot : Cache.Snapshot) (newNames : List Text)
  | rescanScan (toScan : List Text)
  | upsert (u : Upsert)
  | upsertStat (u : Upsert) (modTime : ℤ)
  | upsertTitle (u : Upsert) (modTime : ℤ) (title : Text)
  | upsertRead (u : Upsert) (modTime : ℤ) (title : Text) (resolved : List FileInfo)

/-- The call will scan the project. -/
def CacheCall.willScan (name : Text) : CacheCall → Bool
  | .refresh n | .scanning n _ _ _ _ | .scanned n _ _ _ => n = name
  | .rescanKeep _ toScan _ _ | .rescanScan toScan => toScan.contains name
  | .marking _ | .ensure _ | .rescan _ | .rescanSet _ _ | .upsert _ | .upsertStat _ _ | .upsertTitle _ _ _
  | .upsertRead _ _ _ _ => false

/-- A change makes stale what was read of the file. -/
def CacheCall.touch (path : Path) : CacheCall → CacheCall
  | .scanning name project seen stale result =>
    let file := rel project.path path
    .scanning name project seen (if seen.any fun key => key.2 = file then file :: stale else stale) result
  | .scanned name project stale result => .scanned name project (rel project.path path :: stale) result
  | .upsertStat u modTime => .upsertStat (u.touch path) modTime
  | .upsertTitle u modTime title => .upsertTitle (u.touch path) modTime title
  | .upsertRead u modTime title resolved => .upsertRead (u.touch path) modTime title resolved
  | .refresh name => .refresh name
  | .marking name => .marking name
  | .ensure name => .ensure name
  | .rescan projects => .rescan projects
  | .rescanSet projects snapshot => .rescanSet projects snapshot
  | .rescanKeep kept toScan snapshot newNames => .rescanKeep kept toScan snapshot newNames
  | .rescanScan toScan => .rescanScan toScan
  | .upsert u => .upsert u

theorem CacheCall.willScan_touch (name : Text) (path : Path) (call : CacheCall) :
    (call.touch path).willScan name = call.willScan name := by
  cases call <;> rfl

/-! ## Steps -/

structure CacheState where
  cache : Cache := {}
  disk : Disk
  calls : List CacheCall := []
  owed : Text → RelPath → Bool := fun _ _ => false

/-- The operations that go on while others run. -/
inductive CacheOp where
  | refreshProject (name : Text)
  | ensureProjectScanned (name : Text)
  | rescanWith (projects : List Project)
  | upsertFile (name : Text) (project : Project) (path : Path)

def CacheOp.call : CacheOp → CacheCall
  | .refreshProject name => .refresh name
  | .ensureProjectScanned name => .ensure name
  | .rescanWith projects => .rescan projects
  | .upsertFile name project path => .upsert { name, project, path }

inductive CacheEvent where
  /-- A file changes. -/
  | change (path : Path) (disk : Disk)
  | start (op : CacheOp)
  | removeFile (name : Text) (path : RelPath)
  /-- A scan reads some files. -/
  | read (i : ℕ) (keys : List (Text × RelPath))
  /-- A call goes on; `spare` is the room in a new array. -/
  | advance (i spare : ℕ)

namespace CacheState

variable (s : CacheState)

/-- A scan of the project is under way, or to come. -/
def pending (name : Text) : Bool := s.calls.any (CacheCall.willScan name)

/-- The entries of a file of a listed project in a fresh scan. -/
def freshEntries (name : Text) (path : RelPath) : List FileInfo :=
  match s.cache.findProject name with
  | some project => entriesOf path (freshScan getSourceType s.disk project)
  | none => []

/-- An update of the file has been made. -/
def settle (name : Text) (path : RelPath) : Text → RelPath → Bool :=
  fun n p => s.owed n p && !(n = name && p = path)

/-- Every listed project is owed an update of a file that changes. -/
def owe (path : Path) : Text → RelPath → Bool :=
  fun n p => s.owed n p || (s.cache.findProject n).any fun project => p = rel project.path path

/-- The next section or reading of a call, and the calls that it leaves. -/
def advance (spare : ℕ) : CacheCall → CacheState × List CacheCall
  | .refresh name =>
    match s.cache.findProject name with
    | none => (s, [])
    | some project => (s, [.scanning name project [] [] []])
  | .scanning name project seen stale result =>
    -- what is left to read
    let rest := found getSourceType s.disk project seen fun _ => true
    (s, [.scanned name project stale (sortByModTime (result ++ rest))])
  | .scanned name _ _ result => ({ s with cache := s.cache.setProjectFiles name result spare }, [.marking name])
  | .marking name => ({ s with cache := s.cache.markScanned name }, [])
  | .ensure name =>
    if s.cache.isScanned name then (s, [])
    else ({ s with cache := s.cache.markScanned name }, [.refresh name])
  | .rescan projects => (s, [.rescanSet projects s.cache.snapshot])
  | .rescanSet projects snapshot =>
    let (toScan, kept) := projects.partition snapshot.needsScan
    ({ s with cache := s.cache.setProjects projects },
      [.rescanKeep (kept.map Project.qualifiedName) (toScan.map Project.qualifiedName) snapshot
        (projects.map Project.qualifiedName)])
  | .rescanKeep (name :: kept) toScan snapshot newNames =>
    ({ s with cache := s.cache.restore name (snapshot.files name) },
      [.rescanKeep kept toScan snapshot newNames])
  | .rescanKeep [] toScan snapshot newNames =>
    ({ s with cache := s.cache.cleanUp snapshot newNames }, [.rescanScan toScan])
  | .rescanScan toScan => (s, toScan.map .refresh)
  | .upsert u =>
    match s.disk.stat u.path with
    | none => (s, [])
    | some modTime => (s, [.upsertStat u modTime])
  | .upsertStat u modTime => (s, [.upsertTitle u modTime (s.disk.title u.path)])
  | .upsertTitle u modTime title =>
    (s, [.upsertRead u modTime title (resolveNow getSourceType s.disk u.project u.path)])
  | .upsertRead u modTime title resolved =>
    ({ s with
      cache := s.cache.upsertFile u.name u.relPath modTime title resolved spare
      owed := if u.stale then s.owed else s.settle u.name u.relPath }, [])

def step : CacheEvent → Option CacheState
  | .change path disk => some { s with disk, calls := s.calls.map (CacheCall.touch path), owed := s.owe path }
  | .start op => some { s with calls := s.calls ++ [op.call] }
  | .removeFile name path =>
    some { s with
      cache := s.cache.removeFile name path
      owed := if s.freshEntries getSourceType name path = [] then s.settle name path else s.owed }
  | .read i keys =>
    match s.calls[i]? with
    | some (.scanning name project seen stale result) =>
      let more := found getSourceType s.disk project seen fun key => keys.contains key
      some { s with
        calls := replaceAt s.calls i [.scanning name project (keys ++ seen) stale (result ++ more)] }
    | _ => none
  | .advance i spare =>
    (s.calls[i]?).map fun call =>
      let (t, left) := s.advance getSourceType spare call
      { t with calls := replaceAt s.calls i left }

end CacheState

end Builderbot.Penpal
