import Builderbot.Lib.Table
import Builderbot.Penpal.ProjectScan

/-!
# The file cache

The cache of `apps/penpal/internal/cache/cache.go` keeps the projects, a list of files for each of them, and
a flag that says whether the files of a project were scanned. The functions below are the parts that run
under the lock.

The lists are slices: they share their array with every copy of the slice, `RemoveFile` moves the entries
within the array, and `UpsertFile` appends in place while there is room. Arrays are numbered as they are
made, and the array `0` is the empty one of a `nil` slice.
-/

namespace Builderbot.Penpal

open Git (Text)

/-- A slice from the start of an array. -/
structure Slice where
  array : ℕ := 0
  len : ℕ := 0
deriving DecidableEq, Repr

/-- The entry of the unused part of an array. -/
def FileInfo.zero : FileInfo where
  project := []
  workspace := []
  projectPath := []
  source := []
  sourceType := .unknown
  sourceAuto := false
  path := ⟨0, []⟩
  fullPath := ⟨0, []⟩
  name := []
  title := []
  modTime := 0
  fileType := []

structure Cache where
  projects : List Project := []
  projectFiles : Table Text Slice := ∅
  projectScanned : Table Text Bool := ∅
  /-- The arrays, with their whole capacity. -/
  heap : ℕ → List FileInfo := fun _ => []
  next : ℕ := 1

/-- The entries of one file. -/
def entriesOf (path : RelPath) (files : List FileInfo) : List FileInfo :=
  files.filter fun file => file.fullPath = path

/-- `filterManualFileInfos`. -/
def filterManualFileInfos (project : Project) (files : List FileInfo) : List FileInfo :=
  let manual := (project.sources.filter fun source => source.sourceTypeName = "manual".toList).map
    FileSource.name
  files.filter fun file => !manual.contains file.source

/-- Two sources differ in a way that `SourcesChanged` sees. -/
def sourceChanged (a b : FileSource) : Bool :=
  a.name ≠ b.name || a.kind ≠ b.kind || a.rootPath ≠ b.rootPath || a.sourceTypeName ≠ b.sourceTypeName ||
    a.files ≠ b.files

/-- `SourcesChanged`. -/
def sourcesChanged (a b : List FileSource) : Bool :=
  a.length ≠ b.length || (a.zip b).any fun pair => sourceChanged pair.1 pair.2

namespace Cache

variable (c : Cache)

/-- `FindProject`. -/
def findProject (name : Text) : Option Project := c.projects.find? fun p => p.qualifiedName = name

/-- The slice of a project, `nil` if there is none. -/
def files (name : Text) : Slice := (c.projectFiles.lookup name).getD {}

/-- The entries of a slice. -/
def content (slice : Slice) : List FileInfo := (c.heap slice.array).take slice.len

/-- `IsProjectScanned`. -/
def isScanned (name : Text) : Bool := (c.projectScanned.lookup name).getD false

/-- `SetProjects`. -/
def setProjects (projects : List Project) : Cache := { c with projects }

/-- `AddProject`. -/
def addProject (project : Project) : Cache :=
  if c.projects.any fun p => p.qualifiedName = project.qualifiedName then
    { c with
      projects := replaceFirst project c.projects }
  else { c with projects := c.projects ++ [project] }
where
  /-- The first project of that name is replaced. -/
  replaceFirst (project : Project) : List Project → List Project
    | [] => []
    | p :: ps => if p.qualifiedName = project.qualifiedName then project :: ps else p :: replaceFirst project ps

/-- `RemoveProject`. The flag stays. -/
def removeProject (name : Text) : Cache :=
  { c with
    projects := c.projects.eraseP fun p => p.qualifiedName = name
    projectFiles := c.projectFiles.erase name }

/-- A flag is set. -/
def markScanned (name : Text) : Cache := { c with projectScanned := c.projectScanned.insert name true }

/-- A new array with room for `spare` more entries. -/
def allocate (name : Text) (files : List FileInfo) (spare : ℕ) : Cache :=
  { c with
    projectFiles := c.projectFiles.insert name ⟨c.next, files.length⟩
    heap := Function.update c.heap c.next (files ++ List.replicate spare .zero)
    next := c.next + 1 }

/-- `SetProjectFiles`. -/
def setProjectFiles (name : Text) (files : List FileInfo) (spare : ℕ) : Cache :=
  (c.allocate name files spare).markScanned name

/-- The first entries of the array of a project are overwritten. -/
def overwrite (name : Text) (files : List FileInfo) : Cache :=
  let array := (c.files name).array
  { c with
    projectFiles := c.projectFiles.insert name ⟨array, files.length⟩
    heap := Function.update c.heap array (files ++ (c.heap array).drop files.length) }

/-- The critical section of `UpsertFile`, with what was read before. -/
def upsertFile (name : Text) (path : RelPath) (modTime : ℤ) (title : Text) (resolved : List FileInfo)
    (spare : ℕ) : Cache :=
  let slice := c.files name
  let files := c.content slice
  if files.any fun file => file.fullPath = path then
    c.overwrite name (sortByModTime (files.map fun file =>
      if file.fullPath = path then { file with modTime, title } else file))
  else if resolved = [] then c
  else
    -- `append` writes into the array while its capacity is enough
    if slice.len + resolved.length ≤ (c.heap slice.array).length then
      c.overwrite name (sortByModTime (files ++ resolved))
    else c.allocate name (sortByModTime (files ++ resolved)) spare

/-- `RemoveFile`. The entries that stay are moved to the front of the array. -/
def removeFile (name : Text) (path : RelPath) : Cache :=
  let files := c.content (c.files name)
  let kept := files.filter fun file => file.fullPath ≠ path
  if kept.length = files.length then c else c.overwrite name kept

/-! ## Rescanning -/

/-- What `RescanWith` remembers of the cache. -/
structure Snapshot where
  projects : List Project
  scanned : Text → Bool
  files : Text → Option Slice

/-- The snapshot of `RescanWith`, of the projects in the list. -/
def snapshot : Snapshot where
  projects := c.projects
  scanned := fun name => c.isScanned name
  files := fun name => if (c.findProject name).isSome then c.projectFiles.lookup name else none

/-- The project that the map `existing` has for a name: the last one of the list. -/
def Snapshot.existing (snapshot : Snapshot) (name : Text) : Option Project :=
  snapshot.projects.reverse.find? fun p => p.qualifiedName = name

/-- `RescanWith` scans the project. -/
def Snapshot.needsScan (snapshot : Snapshot) (project : Project) : Bool :=
  match snapshot.existing project.qualifiedName with
  | none => true
  | some prev => !snapshot.scanned project.qualifiedName || sourcesChanged prev.sources project.sources

/-- `RescanWith` keeps the files of a project. -/
def restore (name : Text) (slice : Option Slice) : Cache :=
  { c with
    projectFiles := c.projectFiles.insert name (slice.getD {})
    projectScanned := c.projectScanned.insert name true }

/-- `RescanWith` had files of the project, and it is not in the list any more. -/
def Snapshot.forgets (snapshot : Snapshot) (newNames : List Text) (name : Text) : Bool :=
  (snapshot.files name).isSome && !newNames.contains name

/-- `RescanWith` forgets the projects that are gone. -/
def cleanUp (snapshot : Snapshot) (newNames : List Text) : Cache :=
  { c with
    projectFiles := c.projectFiles.retain fun name _ => !snapshot.forgets newNames name
    projectScanned := c.projectScanned.retain fun name _ => !snapshot.forgets newNames name }

/-! ## What the operations do to the lists -/

/-- The entries of a project. -/
def fileList (name : Text) : List FileInfo := c.content (c.files name)

/-- The slices are within their arrays, and no two projects share one. -/
structure HeapOk : Prop where
  empty : c.heap 0 = []
  pos : 0 < c.next
  bounded : ∀ name, (c.files name).array < c.next ∧
    (c.files name).len ≤ (c.heap (c.files name).array).length
  separate : ∀ name other, (c.files name).array = (c.files other).array →
    (c.files name).array ≠ 0 → name = other

variable {c} {name : Text}

/-- No slice is in use. -/
theorem heapOk_new : HeapOk {} where
  empty := rfl
  pos := Nat.one_pos
  bounded := fun _ => ⟨Nat.one_pos, Nat.le_refl _⟩
  separate := fun _ _ _ h => absurd rfl h

/-- The operations on the lists see a cache only through its slices and arrays. -/
theorem HeapOk.of_files {c' : Cache} (h : c.HeapOk) (hfiles : c'.files = c.files) (hheap : c'.heap = c.heap)
    (hnext : c'.next = c.next) : c'.HeapOk := by
  refine ⟨?_, ?_, ?_, ?_⟩
  · rw [hheap]
    exact h.empty
  · rw [hnext]
    exact h.pos
  · rw [hfiles, hheap, hnext]
    exact h.bounded
  · rw [hfiles]
    exact h.separate

/-- What a project has depends on its slice and the heap only. -/
theorem fileList_of_files {c' : Cache} (hfiles : c'.files = c.files) (hheap : c'.heap = c.heap) :
    c'.fileList = c.fileList := by
  funext name
  rw [fileList, fileList, hfiles, content, content, hheap]

/-- A project without a slice has the empty one. -/
theorem lookup_insert_getD (files : Table Text Slice) (name other : Text) (slice : Slice) :
    ((files.insert name slice).lookup other).getD {} =
      if other = name then slice else (files.lookup other).getD {} := by
  by_cases h : other = name
  · rw [if_pos h, h, AList.lookup_insert, Option.getD_some]
  · rw [if_neg h, AList.lookup_insert_ne h]

/-- The list of one project is replaced. -/
structure Replaces (c c' : Cache) (name : Text) (files : List FileInfo) : Prop where
  heap : c'.HeapOk
  self : c'.fileList name = files
  other : ∀ m, m ≠ name → c'.fileList m = c.fileList m
  projects : c'.projects = c.projects
  scanned : c'.projectScanned = c.projectScanned

theorem take_append_self (files rest : List FileInfo) : (files ++ rest).take files.length = files := by
  rw [List.take_left]

/-- A new array belongs to no other project. -/
theorem allocate_replaces (h : c.HeapOk) (name : Text) (files : List FileInfo) (spare : ℕ) :
    Replaces c (c.allocate name files spare) name files := by
  have hfiles : ∀ m, (c.allocate name files spare).files m =
      if m = name then ⟨c.next, files.length⟩ else c.files m := by
    intro m
    exact lookup_insert_getD c.projectFiles name m _
  -- the other headers point to older arrays
  have hheap : ∀ m, m ≠ name → (c.allocate name files spare).heap (c.files m).array =
      c.heap (c.files m).array := by
    intro m _
    have hlt := (h.bounded m).1
    exact Function.update_of_ne (by omega) _ _
  have hnew : (c.allocate name files spare).heap c.next = files ++ List.replicate spare .zero :=
    Function.update_self _ _ _
  refine ⟨⟨?_, ?_, ?_, ?_⟩, ?_, ?_, rfl, rfl⟩
  · have hpos := h.pos
    have hzero : (c.allocate name files spare).heap 0 = c.heap 0 := Function.update_of_ne (by omega) _ _
    rw [hzero, h.empty]
  · exact Nat.succ_pos _
  · intro m
    rw [hfiles]
    by_cases hm : m = name
    · rw [if_pos hm, hnew]
      exact ⟨Nat.lt_succ_self _, by simp⟩
    · rw [if_neg hm, hheap m hm]
      exact ⟨Nat.lt_succ_of_lt (h.bounded m).1, (h.bounded m).2⟩
  · intro m m'
    rw [hfiles, hfiles]
    have hm := (h.bounded m).1
    have hm' := (h.bounded m').1
    split
    · rename_i heq
      split
      · rename_i heq'
        exact fun _ _ => heq.trans heq'.symm
      · intro harray
        have harray' : c.next = (c.files m').array := harray
        omega
    · split
      · intro harray
        have harray' : (c.files m).array = c.next := harray
        omega
      · exact h.separate m m'
  · rw [fileList, hfiles, if_pos rfl, content, hnew, take_append_self]
  · intro m hm
    rw [fileList, hfiles, if_neg hm, content, hheap m hm]
    rfl

/-- An array in use belongs to one project, so that no other list changes. -/
theorem overwrite_replaces (h : c.HeapOk) {files : List FileInfo} (harray : (c.files name).array ≠ 0) :
    Replaces c (c.overwrite name files) name files := by
  have hfiles : ∀ m, (c.overwrite name files).files m =
      if m = name then ⟨(c.files name).array, files.length⟩ else c.files m := by
    intro m
    exact lookup_insert_getD c.projectFiles name m _
  -- no other header points to the array, by `separate`
  have hheap : ∀ m, m ≠ name → (c.overwrite name files).heap (c.files m).array =
      c.heap (c.files m).array := by
    intro m hm
    refine Function.update_of_ne (fun heq => hm ?_) _ _
    exact (h.separate name m heq.symm harray).symm
  have hself : (c.overwrite name files).heap (c.files name).array =
      files ++ (c.heap (c.files name).array).drop files.length := Function.update_self _ _ _
  refine ⟨⟨?_, h.pos, ?_, ?_⟩, ?_, ?_, rfl, rfl⟩
  · have hzero : (c.overwrite name files).heap 0 = c.heap 0 :=
      Function.update_of_ne (fun heq => harray heq.symm) _ _
    rw [hzero, h.empty]
  · intro m
    rw [hfiles]
    by_cases hm : m = name
    · rw [if_pos hm, hself]
      exact ⟨(h.bounded name).1, by simp⟩
    · rw [if_neg hm, hheap m hm]
      exact h.bounded m
  · intro m m'
    rw [hfiles, hfiles]
    split
    · rename_i heq
      split
      · rename_i heq'
        exact fun _ _ => heq.trans heq'.symm
      · exact fun harray' hne => heq.trans (h.separate name m' harray' hne)
    · split
      · rename_i heq'
        exact fun harray' hne => (h.separate m name harray' hne).trans heq'.symm
      · exact h.separate m m'
  · rw [fileList, hfiles, if_pos rfl, content, hself, take_append_self]
  · intro m hm
    rw [fileList, hfiles, if_neg hm, content, hheap m hm]
    rfl

/-- Only an array with entries has a number. -/
theorem HeapOk.array_ne_zero (h : c.HeapOk) (hne : c.heap (c.files name).array ≠ []) :
    (c.files name).array ≠ 0 := by
  intro hzero
  rw [hzero] at hne
  exact hne h.empty

/-- A list that is not empty has an array. -/
theorem heap_ne_nil_of_fileList (hne : c.fileList name ≠ []) : c.heap (c.files name).array ≠ [] := by
  intro hnil
  rw [fileList, content, hnil, List.take_nil] at hne
  exact hne rfl

/-- The list that `UpsertFile` makes, before it is sorted. -/
def upserted (path : RelPath) (modTime : ℤ) (title : Text) (resolved files : List FileInfo) :
    List FileInfo :=
  if files.any fun file => file.fullPath = path then
    files.map fun file => if file.fullPath = path then { file with modTime, title } else file
  else files ++ resolved

/-- `UpsertFile` changes the list of one project; the order of the entries is left open. -/
theorem upsertFile_replaces (h : c.HeapOk) (name : Text) (path : RelPath) (modTime : ℤ) (title : Text)
    (resolved : List FileInfo) (spare : ℕ) :
    ∃ files, Replaces c (c.upsertFile name path modTime title resolved spare) name files ∧
      files.Perm (upserted path modTime title resolved (c.fileList name)) := by
  have hsort : ∀ files : List FileInfo, (sortByModTime files).Perm files :=
    fun files => List.perm_insertionSort _ files
  have hcontent : c.content (c.files name) = c.fileList name := rfl
  simp only [upsertFile, upserted, hcontent]
  by_cases hknown : (c.fileList name).any (fun file => decide (file.fullPath = path)) = true
  · simp only [if_pos hknown]
    have hne : c.fileList name ≠ [] := by
      intro hnil
      rw [hnil] at hknown
      cases hknown
    refine ⟨_, overwrite_replaces h (h.array_ne_zero (heap_ne_nil_of_fileList hne)), hsort _⟩
  · simp only [if_neg hknown]
    by_cases hnone : resolved = []
    · rw [if_pos hnone, hnone, List.append_nil]
      exact ⟨_, ⟨h, rfl, fun _ _ => rfl, rfl, rfl⟩, .refl _⟩
    · rw [if_neg hnone]
      split
      · rename_i hroom
        have hne : c.heap (c.files name).array ≠ [] := by
          intro hnil
          rw [hnil, List.length_nil] at hroom
          have hlen : 0 < resolved.length := List.length_pos_iff.mpr hnone
          omega
        exact ⟨_, overwrite_replaces h (h.array_ne_zero hne), hsort _⟩
      · exact ⟨_, allocate_replaces h name _ spare, hsort _⟩

/-- `RemoveFile` writes the entries that stay to the front of the same array. -/
theorem removeFile_replaces (h : c.HeapOk) (name : Text) (path : RelPath) :
    Replaces c (c.removeFile name path) name
      ((c.fileList name).filter fun file => file.fullPath ≠ path) := by
  have hcontent : c.content (c.files name) = c.fileList name := rfl
  simp only [removeFile, hcontent]
  split
  · rename_i hlen
    have hsame := List.filter_eq_self.mpr (List.length_filter_eq_length_iff.mp hlen)
    exact ⟨h, hsame.symm, fun _ _ => rfl, rfl, rfl⟩
  · rename_i hlen
    have hne : c.fileList name ≠ [] := by
      intro hnil
      rw [hnil] at hlen
      exact hlen rfl
    exact overwrite_replaces h (h.array_ne_zero (heap_ne_nil_of_fileList hne))

/-! ## What they do to the flags -/

/-- One flag is set. -/
@[simp]
theorem isScanned_markScanned (c : Cache) (name other : Text) :
    (c.markScanned name).isScanned other = (decide (other = name) || c.isScanned other) := by
  rw [isScanned, isScanned, markScanned]
  by_cases h : other = name
  · rw [h, AList.lookup_insert, decide_eq_true rfl]
    rfl
  · rw [AList.lookup_insert_ne h, decide_eq_false h]
    rfl

theorem fileList_markScanned (c : Cache) (name : Text) : (c.markScanned name).fileList = c.fileList :=
  fileList_of_files rfl rfl

/-- Flags are not on the heap. -/
theorem HeapOk.markScanned (h : c.HeapOk) (name : Text) : (c.markScanned name).HeapOk :=
  h.of_files rfl rfl rfl

/-- A list that is restored while it is still in the cache stays as it is. -/
theorem files_restore {slice : Option Slice} (h : c.files name = slice.getD {}) :
    (c.restore name slice).files = c.files := by
  funext other
  rw [files, restore, lookup_insert_getD]
  split
  · rename_i heq
    rw [heq, h]
  · rfl

/-- Projects that are gone lose their lists. -/
theorem files_cleanUp (c : Cache) (snapshot : Snapshot) (newNames : List Text) (name : Text) :
    (c.cleanUp snapshot newNames).files name =
      if snapshot.forgets newNames name then {} else c.files name := by
  rw [files, cleanUp, Table.lookup_retain_key]
  cases snapshot.forgets newNames name <;> rfl

/-- And their flags. -/
theorem isScanned_cleanUp (c : Cache) (snapshot : Snapshot) (newNames : List Text) (name : Text) :
    (c.cleanUp snapshot newNames).isScanned name =
      (!snapshot.forgets newNames name && c.isScanned name) := by
  rw [isScanned, cleanUp, Table.lookup_retain_key]
  cases snapshot.forgets newNames name <;> rfl

/-- Slices that are forgotten are shared by nobody. -/
theorem HeapOk.cleanUp (h : c.HeapOk) (snapshot : Snapshot) (newNames : List Text) :
    (c.cleanUp snapshot newNames).HeapOk := by
  refine ⟨h.empty, h.pos, fun name => ?_, fun name other => ?_⟩
  · rw [files_cleanUp]
    split
    · exact ⟨h.pos, Nat.zero_le _⟩
    · exact h.bounded name
  · rw [files_cleanUp, files_cleanUp]
    split
    · exact fun _ hne => absurd rfl hne
    · split
      · exact fun heq hne => absurd heq hne
      · exact h.separate name other

end Cache

end Builderbot.Penpal
