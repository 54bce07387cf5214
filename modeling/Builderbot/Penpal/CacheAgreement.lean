import Builderbot.Penpal.CacheUpdates
import Builderbot.Penpal.ResolveAgreement

/-!
# What the updates leave in the cache

When no call is in progress and no update is owed, the list of a scanned project is the one that a fresh scan
would give, in some order. The operations do not keep this up in every run. It holds as long as no step
stores what is stale by then, which `SafeCall` and `Safe` say step by step.
-/

namespace Builderbot.Penpal

open Git (Text)

variable {getSourceType : Text → Option SourceType}

/-! ## Entries of one file -/

variable {path : RelPath} {files : List FileInfo}

theorem mem_entriesOf {file : FileInfo} :
    file ∈ entriesOf path files ↔ file ∈ files ∧ file.fullPath = path := by
  rw [entriesOf, List.mem_filter, decide_eq_true_eq]

theorem entriesOf_append (path : RelPath) (files more : List FileInfo) :
    entriesOf path (files ++ more) = entriesOf path files ++ entriesOf path more := List.filter_append ..

theorem entriesOf_eq_self (h : ∀ file ∈ files, file.fullPath = path) : entriesOf path files = files := by
  rw [entriesOf, List.filter_eq_self]
  exact fun file hfile => decide_eq_true (h file hfile)

theorem entriesOf_eq_nil (h : ∀ file ∈ files, file.fullPath ≠ path) : entriesOf path files = [] := by
  rw [entriesOf, List.filter_eq_nil_iff]
  exact fun file hfile => by simpa using h file hfile

variable {files' : List FileInfo}

theorem perm_entriesOf (h : files.Perm files') (path : RelPath) :
    (entriesOf path files).Perm (entriesOf path files') := h.filter _

/-- Lists that have the same entries of every file. -/
theorem perm_of_entriesOf
    (h : ∀ path, (entriesOf path files).Perm (entriesOf path files')) : files.Perm files' := by
  rw [List.perm_iff_count]
  intro file
  have hcount : ∀ list : List FileInfo, (entriesOf file.fullPath list).count file = list.count file := by
    intro list
    exact List.count_filter (by simp)
  rw [← hcount files, ← hcount files']
  exact (h file.fullPath).count_eq file

variable {other : RelPath}

theorem entriesOf_filter_ne (hne : other ≠ path) (files : List FileInfo) :
    entriesOf other (files.filter fun file => file.fullPath ≠ path) = entriesOf other files := by
  rw [entriesOf, entriesOf, List.filter_filter]
  refine List.filter_congr fun file _ => ?_
  by_cases hfile : file.fullPath = other
  · simp [hfile, hne]
  · simp [hfile]

/-- Entries of other files are the same if the lists without the file are. -/
theorem perm_entriesOf_of_ne
    (h : (files.filter fun file => file.fullPath ≠ path).Perm (files'.filter fun file => file.fullPath ≠ path))
    (hne : other ≠ path) : (entriesOf other files).Perm (entriesOf other files') := by
  rw [← entriesOf_filter_ne hne files, ← entriesOf_filter_ne hne files']
  exact perm_entriesOf h other

/-! ## What `UpsertFile` reads and writes -/

/-- A source adds at most one entry to what `ResolveFileInfo` has. -/
def AddsEntry (project : Project) (path : Path) (data : FileData) (before after : List FileInfo) : Prop :=
  after = before ∨ ∃ entry : FileInfo, after = before ++ [entry] ∧ entry.fullPath = rel project.path path ∧
    entry.modTime = data.modTime ∧ entry.title = extractTitle data.content

theorem addsEntry_resolveTree (fs : FileTree FileData) (rules : IgnoreRules) (project : Project)
    (path : Path) (data : FileData) (acc : List FileInfo × Bool) (source : FileSource) (root : Path) :
    AddsEntry project path data acc.1
      (resolveTree fs rules getSourceType project path data acc source root).1 := by
  have hentry : ∀ fileType, AddsEntry project path data acc.1
      (acc.1 ++ [treeEntry project source root path data fileType]) :=
    fun fileType => .inr ⟨treeEntry project source root path data fileType, rfl, rfl, rfl, rfl⟩
  simp only [resolveTree]
  repeat' split
  all_goals first
    | exact .inl rfl
    | exact hentry _

theorem addsEntry_resolveSource (fs : FileTree FileData) (rules : IgnoreRules) (project : Project)
    (path : Path) (data : FileData) (acc : List FileInfo × Bool) (source : FileSource) :
    AddsEntry project path data acc.1
      (resolveSource fs rules getSourceType project path data acc source).1 := by
  have hentry : AddsEntry project path data acc.1
      (acc.1 ++ [listedEntry project source path data (extractTitle data.content)]) :=
    .inr ⟨listedEntry project source path data (extractTitle data.content), rfl, rfl, rfl, rfl⟩
  rcases hroot : source.treeRoot with _ | root
  · cases hkind : source.kind with
    | thoughts | tree =>
      simp only [FileSource.treeRoot, hkind] at hroot
      simp only [resolveSource, hkind, hroot]
      exact .inl rfl
    | unknown =>
      simp only [resolveSource, hkind]
      exact .inl rfl
    | files =>
      simp only [resolveSource, hkind]
      repeat' split
      all_goals first
        | exact .inl rfl
        | exact hentry
  · rw [resolveSource_of_treeRoot hroot]
    exact addsEntry_resolveTree fs rules project path data acc source root

theorem of_mem_foldl_resolveSource (fs : FileTree FileData) (rules : IgnoreRules) (project : Project)
    (path : Path) (data : FileData) (sources : List FileSource) (acc : List FileInfo × Bool)
    (hacc : ∀ file ∈ acc.1, file.fullPath = rel project.path path ∧ file.modTime = data.modTime ∧
      file.title = extractTitle data.content) :
    ∀ file ∈ (sources.foldl (resolveSource fs rules getSourceType project path data) acc).1,
      file.fullPath = rel project.path path ∧ file.modTime = data.modTime ∧
        file.title = extractTitle data.content := by
  induction sources generalizing acc with
  | nil => exact hacc
  | cons source sources ih =>
    refine ih _ fun file hfile => ?_
    rcases addsEntry_resolveSource fs rules project path data acc source with hsame | ⟨entry, hadd, hentry⟩
    · exact hacc file (hsame ▸ hfile)
    · rw [hadd, List.mem_append, List.mem_singleton] at hfile
      rcases hfile with hfile | rfl
      · exact hacc file hfile
      · exact hentry

variable {project : Project} {disk : Disk}

/-- The entries that are resolved for a file have its path, and what `os.Stat` and `extractTitle` say. -/
theorem of_mem_resolveNow {path : Path} {file : FileInfo}
    (h : file ∈ resolveNow getSourceType disk project path) :
    file.fullPath = rel project.path path ∧ disk.stat path = some file.modTime ∧
      disk.title path = file.title := by
  have hmem : file ∈ resolveFileInfo disk.fs disk.rules getSourceType project path := List.mem_of_mem_filter h
  rw [resolveFileInfo] at hmem
  split at hmem
  · rename_i data _ hat
    split at hmem
    · cases hmem
    · obtain ⟨hpath, hmod, htitle⟩ :=
        of_mem_foldl_resolveSource disk.fs disk.rules project path data project.sources ([], false)
          (by simp) file hmem
      rw [Disk.stat, Disk.title, hat, hmod, htitle]
      exact ⟨hpath, rfl, rfl⟩
  · cases hmem

namespace Cache

variable {path : RelPath} {modTime : ℤ} {title : Text} {resolved files : List FileInfo}

theorem entriesOf_map_renew (other : RelPath) (files : List FileInfo) :
    entriesOf other (files.map fun file => if file.fullPath = path then { file with modTime, title } else file) =
      (entriesOf other files).map fun file =>
        if other = path then { file with modTime, title } else file := by
  have hpath : (fun file : FileInfo => decide (file.fullPath = other)) ∘
      (fun file => if file.fullPath = path then { file with modTime, title } else file) =
        fun file => decide (file.fullPath = other) := by
    funext file
    by_cases hfile : file.fullPath = path
    · simp only [Function.comp_apply, if_pos hfile]
    · simp only [Function.comp_apply, if_neg hfile]
  rw [entriesOf, List.filter_map, hpath, ← entriesOf]
  refine List.map_congr_left fun file hfile => ?_
  rw [(mem_entriesOf.mp hfile).2]

theorem entriesOf_upserted_of_ne (hresolved : ∀ file ∈ resolved, file.fullPath = path) (hne : other ≠ path) :
    entriesOf other (upserted path modTime title resolved files) = entriesOf other files := by
  rw [upserted]
  split
  · rw [entriesOf_map_renew]
    simp only [if_neg hne, List.map_id']
  · have hnone : entriesOf other resolved = [] := by
      refine entriesOf_eq_nil fun file hfile heq => hne ?_
      rw [← heq, hresolved file hfile]
    rw [entriesOf_append, hnone, List.append_nil]

/-- The entries of the file itself: those that were known are renewed, or else the resolved ones are added. -/
theorem entriesOf_upserted_self (hresolved : ∀ file ∈ resolved, file.fullPath = path) :
    entriesOf path (upserted path modTime title resolved files) =
      if entriesOf path files = [] then resolved
      else (entriesOf path files).map fun file => { file with modTime, title } := by
  have hany : (files.any fun file => file.fullPath = path) = !decide (entriesOf path files = []) := by
    rw [entriesOf, Bool.eq_iff_iff]
    simp
  rw [upserted, hany]
  by_cases hnone : entriesOf path files = []
  · rw [decide_eq_true hnone, if_pos hnone]
    show entriesOf path (files ++ resolved) = resolved
    rw [entriesOf_append, hnone, List.nil_append, entriesOf_eq_self hresolved]
  · rw [decide_eq_false hnone, if_neg hnone]
    show entriesOf path (files.map _) = _
    rw [entriesOf_map_renew]
    simp only [if_true]

end Cache

/-! ## Steps that store nothing stale -/

/-- An entry without what `UpsertFile` writes to a known one. -/
def FileInfo.membership (file : FileInfo) : FileInfo := { file with modTime := 0, title := [] }

variable (getSourceType) in
/-- A change of the file leaves the entries of all other files of the project as they are. -/
def OnlyTouches (disk disk' : Disk) (path : Path) (project : Project) : Prop :=
  ((freshScan getSourceType disk' project).filter fun file => file.fullPath ≠ rel project.path path).Perm
    ((freshScan getSourceType disk project).filter fun file => file.fullPath ≠ rel project.path path)

variable (getSourceType) in
/-- What a call reads is about other files, or it is the file that changes. -/
def CacheCall.OnlyTouched (disk disk' : Disk) (path : Path) : CacheCall → Prop
  | .scanning _ project _ _ _ | .scanned _ project _ _ => OnlyTouches getSourceType disk disk' path project
  | .upsertStat u _ | .upsertTitle u _ _ | .upsertRead u _ _ _ =>
    u.path ≠ path → disk'.stat u.path = disk.stat u.path ∧ disk'.title u.path = disk.title u.path ∧
      (resolveNow getSourceType disk' u.project u.path).Perm (resolveNow getSourceType disk u.project u.path)
  | .refresh _ | .marking _ | .ensure _ | .rescan _ | .rescanSet _ _ | .rescanKeep _ _ _ _ | .rescanScan _
  | .upsert _ => True

variable (getSourceType) in
/-- What a call has read is what is on the disk, unless it is stale. -/
def CacheCall.Ok (disk : Disk) : CacheCall → Prop
  | .scanning _ project seen stale result =>
    ∀ path ∉ stale, (entriesOf path result).Perm
      ((entriesOf path (freshScan getSourceType disk project)).filter fun file => seen.contains file.key)
  | .scanned _ project stale result =>
    ∀ path ∉ stale, (entriesOf path result).Perm (entriesOf path (freshScan getSourceType disk project))
  | .upsertStat u modTime => u.stale = false → disk.stat u.path = some modTime
  | .upsertTitle u modTime title =>
    u.stale = false → disk.stat u.path = some modTime ∧ disk.title u.path = title
  | .upsertRead u modTime title resolved =>
    (∀ file ∈ resolved, file.fullPath = u.relPath) ∧
      (u.stale = false → disk.stat u.path = some modTime ∧ disk.title u.path = title ∧
        resolved.Perm (resolveNow getSourceType disk u.project u.path))
  | .refresh _ | .marking _ | .ensure _ | .rescan _ | .rescanSet _ _ | .rescanKeep _ _ _ _ | .rescanScan _
  | .upsert _ => True

instance (disk disk' : Disk) (path : Path) (project : Project) :
    Decidable (OnlyTouches getSourceType disk disk' path project) := inferInstanceAs (Decidable (List.Perm _ _))

namespace CacheState

variable (s : CacheState)

variable (getSourceType) in
/-- The critical section of `UpsertFile` writes the entries that a scan would have. -/
def UpsertFits (u : Upsert) (project : Project) : Prop :=
  if u.stale then s.owed u.name u.relPath = true
  else
    project = u.project ∧
      (resolveNow getSourceType s.disk u.project u.path).Perm
        (entriesOf u.relPath (freshScan getSourceType s.disk u.project)) ∧
      (entriesOf u.relPath (s.cache.fileList u.name) = [] ∨
        ((entriesOf u.relPath (s.cache.fileList u.name)).map FileInfo.membership).Perm
          ((entriesOf u.relPath (freshScan getSourceType s.disk u.project)).map FileInfo.membership))

variable (getSourceType) in
/-- The section of the call at `i` does no harm. Nothing is asked for a project that is not listed, that is
not marked as scanned, or that another scan is to come for. -/
def SafeCall (i : ℕ) : CacheCall → Prop
  -- the files that changed since the scan has read them are still to be updated
  | .scanned name project stale _ =>
    ∀ listed ∈ s.cache.findProject name,
      (s.calls.eraseIdx i).any (CacheCall.willScan name) = true ∨
        (listed = project ∧ ∀ path ∈ stale, s.owed name path = true)
  | .marking name => ∀ _ ∈ s.cache.findProject name, s.cache.isScanned name = true ∨ s.pending name = true
  -- a project that is not scanned again is the one that was listed
  | .rescanSet projects snapshot =>
    ∀ project ∈ projects, snapshot.needsScan project = true ∨
      s.cache.isScanned project.qualifiedName = false ∨
      s.cache.findProject project.qualifiedName = some project
  -- the slice that is restored is the one in the cache
  | .rescanKeep (name :: _) _ snapshot _ =>
    s.cache.files name = (snapshot.files name).getD {} ∧
      ∀ _ ∈ s.cache.findProject name, s.cache.isScanned name = true ∨ s.pending name = true
  | .upsertRead u _ _ _ =>
    ∀ listed ∈ s.cache.findProject u.name,
      s.cache.isScanned u.name = false ∨ s.pending u.name = true ∨ s.UpsertFits getSourceType u listed
  | .rescanKeep [] _ _ _ | .refresh _ | .scanning _ _ _ _ _ | .ensure _ | .rescan _ | .rescanScan _ | .upsert _
  | .upsertStat _ _ | .upsertTitle _ _ _ => True

variable (getSourceType) in
def Safe : CacheEvent → Prop
  | .change path disk =>
    (∀ project ∈ s.cache.projects, OnlyTouches getSourceType s.disk disk path project) ∧
      ∀ call ∈ s.calls, call.OnlyTouched getSourceType s.disk disk path
  -- the file is gone, or it is back and will be updated
  | .removeFile name path => s.freshEntries getSourceType name path = [] ∨ s.owed name path = true
  | .advance i _ => ∀ call ∈ s.calls[i]?, s.SafeCall getSourceType i call
  | .start _ | .read _ _ => True

/-! ## The invariant -/

/-- The list of a project is done with: it is listed and marked as scanned, and no scan of it is to come. -/
structure Settled (name : Text) (project : Project) : Prop where
  listed : s.cache.findProject name = some project
  scanned : s.cache.isScanned name = true
  idle : s.pending name = false

variable (getSourceType) in
/-- The entries of every file are those of a fresh scan, unless an update is owed. -/
def Right (name : Text) (project : Project) : Prop :=
  ∀ path, s.owed name path = false →
    (entriesOf path (s.cache.fileList name)).Perm (entriesOf path (freshScan getSourceType s.disk project))

variable (getSourceType) in
structure Kept : Prop where
  heap : s.cache.HeapOk
  calls : ∀ call ∈ s.calls, call.Ok getSourceType s.disk
  right : ∀ name project, s.Settled name project → s.Right getSourceType name project

end CacheState

/-! ## Readings -/

variable {seen : List (Text × RelPath)}

theorem filter_seen_eq_nil (h : (seen.any fun key => key.2 = path) = false) (files : List FileInfo) :
    ((entriesOf path files).filter fun file => seen.contains file.key) = [] := by
  rw [List.filter_eq_nil_iff]
  intro file hfile hseen
  rw [List.any_eq_false] at h
  refine h file.key (List.contains_iff_mem.mp hseen) ?_
  exact decide_eq_true (mem_entriesOf.mp hfile).2

/-- Reading more of a list that has been read in part. -/
theorem filter_seen_append (seen : List (Text × RelPath)) (reads : Text × RelPath → Bool)
    (files : List FileInfo) :
    (files.filter (fun file => seen.contains file.key) ++
      files.filter fun file => reads file.key && !seen.contains file.key).Perm
      (files.filter fun file => reads file.key || seen.contains file.key) := by
  induction files with
  | nil => exact .refl _
  | cons file files ih =>
    by_cases hseen : seen.contains file.key = true
    · simp only [List.filter_cons, hseen, if_true, Bool.not_true, Bool.and_false, Bool.or_true,
        Bool.false_eq_true, if_false, List.cons_append]
      exact ih.cons file
    · rw [Bool.not_eq_true] at hseen
      cases hreads : reads file.key with
      | false =>
        simp only [List.filter_cons, hseen, hreads, Bool.false_and, Bool.or_false, Bool.false_eq_true,
          if_false]
        exact ih
      | true =>
        simp only [List.filter_cons, hseen, hreads, Bool.not_false, Bool.true_and, Bool.or_false, if_true,
          Bool.false_eq_true, if_false]
        exact List.perm_middle.trans (ih.cons file)

variable {result : List FileInfo}

/-- A scan that goes on reading. -/
theorem perm_entriesOf_found (reads : Text × RelPath → Bool) (h : (entriesOf path result).Perm
      ((entriesOf path (freshScan getSourceType disk project)).filter fun file => seen.contains file.key)) :
    (entriesOf path (result ++ found getSourceType disk project seen reads)).Perm
      ((entriesOf path (freshScan getSourceType disk project)).filter fun file =>
        reads file.key || seen.contains file.key) := by
  have hfound : entriesOf path (found getSourceType disk project seen reads) =
      (entriesOf path (freshScan getSourceType disk project)).filter fun file =>
        reads file.key && !seen.contains file.key := by
    rw [found, entriesOf, entriesOf, List.filter_filter, List.filter_filter]
    exact List.filter_congr fun _ _ => Bool.and_comm _ _
  rw [entriesOf_append, hfound]
  exact (h.append_right _).trans (filter_seen_append seen reads _)

theorem Upsert.of_touch_not_stale {u : Upsert} {path : Path} (h : (u.touch path).stale = false) :
    u.stale = false ∧ u.path ≠ path := by
  rw [Upsert.touch, Bool.or_eq_false_iff, decide_eq_false_iff_not] at h
  exact h

/-- A change that touches only its own file makes nothing wrong but what becomes stale. -/
theorem CacheCall.Ok.touch {disk' : Disk} {path : Path} {call : CacheCall}
    (h : call.Ok getSourceType disk) (htouched : call.OnlyTouched getSourceType disk disk' path) :
    (call.touch path).Ok getSourceType disk' := by
  cases call with
  -- the scan has read the file, which makes it stale, or has not come to it
  | scanning name project seen stale result =>
    intro p hp
    by_cases hseen : (seen.any fun key => key.2 = rel project.path path) = true
    · simp only [if_pos hseen, List.mem_cons, not_or] at hp
      have hsame := perm_entriesOf_of_ne htouched hp.1
      exact (h p hp.2).trans (hsame.symm.filter _)
    · simp only [if_neg hseen] at hp
      by_cases hfile : p = rel project.path path
      · -- nothing of the file has been read
        subst hfile
        rw [Bool.not_eq_true] at hseen
        have hnone := h _ hp
        rw [filter_seen_eq_nil hseen] at hnone ⊢
        exact hnone
      · have hsame := perm_entriesOf_of_ne htouched hfile
        exact (h p hp).trans (hsame.symm.filter _)
  | scanned name project stale result =>
    intro p hp
    simp only [List.mem_cons, not_or] at hp
    exact (h p hp.2).trans (perm_entriesOf_of_ne htouched hp.1).symm
  | upsertStat u modTime =>
    intro hstale
    obtain ⟨hfresh, hne⟩ := Upsert.of_touch_not_stale hstale
    obtain ⟨hstat, -, -⟩ := htouched hne
    exact hstat.trans (h hfresh)
  | upsertTitle u modTime title =>
    intro hstale
    obtain ⟨hfresh, hne⟩ := Upsert.of_touch_not_stale hstale
    obtain ⟨hstat, htitle, -⟩ := htouched hne
    exact ⟨hstat.trans (h hfresh).1, htitle.trans (h hfresh).2⟩
  | upsertRead u modTime title resolved =>
    refine ⟨h.1, fun hstale => ?_⟩
    obtain ⟨hfresh, hne⟩ := Upsert.of_touch_not_stale hstale
    obtain ⟨hstat, htitle, hresolve⟩ := htouched hne
    obtain ⟨hm, ht, hr⟩ := h.2 hfresh
    exact ⟨hstat.trans hm, htitle.trans ht, hr.trans hresolve.symm⟩
  | _ => trivial


/-! ## Sections -/

variable {name : Text} {snapshot : Cache.Snapshot} {newNames : List Text}

namespace CacheState

variable {s t : CacheState} {i : ℕ} {call : CacheCall} {left : List CacheCall}

/-- A list that stays as it is. -/
theorem Right.of_fileList (h : s.Right getSourceType name project)
    (hdisk : t.disk = s.disk) (hfiles : t.cache.fileList name = s.cache.fileList name)
    (howed : ∀ path, t.owed name path = false → s.owed name path = false) :
    t.Right getSourceType name project := by
  intro path hpath
  rw [hdisk, hfiles]
  exact h path (howed path hpath)

/-- Which projects a state with a call replaced is done with. -/
theorem Settled.of_replaceAt (h : Settled { t with calls := replaceAt s.calls i left } name project) :
    t.cache.findProject name = some project ∧ t.cache.isScanned name = true ∧
      (s.calls.eraseIdx i).any (CacheCall.willScan name) = false ∧
      left.any (CacheCall.willScan name) = false := by
  have hidle := h.idle
  rw [pending, any_replaceAt, Bool.or_eq_false_iff] at hidle
  exact ⟨h.listed, h.scanned, hidle⟩

/-- The project has no other scan to come than that of the call. -/
theorem pending_eq (hcall : s.calls[i]? = some call)
    (hothers : (s.calls.eraseIdx i).any (CacheCall.willScan name) = false) :
    s.pending name = call.willScan name := by
  rw [pending, any_eq_eraseIdx hcall, hothers, Bool.false_or]

/-- A step of a call, by what it does to the projects whose list is then done with. -/
theorem Kept.of_replaceAt (h : s.Kept getSourceType) (hdisk : t.disk = s.disk) (hheap : t.cache.HeapOk)
    (hleft : ∀ call ∈ left, call.Ok getSourceType s.disk)
    (hright : ∀ name project, t.cache.findProject name = some project → t.cache.isScanned name = true →
      (s.calls.eraseIdx i).any (CacheCall.willScan name) = false →
      left.any (CacheCall.willScan name) = false → t.Right getSourceType name project) :
    Kept getSourceType { t with calls := replaceAt s.calls i left } := by
  refine ⟨hheap, fun call hmem => ?_, fun name project hsettled => ?_⟩
  · show call.Ok getSourceType t.disk
    rw [hdisk]
    rcases mem_replaceAt hmem with hold | hnew
    · exact h.calls call hold
    · exact hleft call hnew
  · obtain ⟨hlisted, hscanned, hothers, hnone⟩ := hsettled.of_replaceAt
    exact hright name project hlisted hscanned hothers hnone

/-- A step that leaves the cache alone, and no scan out. -/
theorem Kept.of_reading (h : s.Kept getSourceType) (hcall : s.calls[i]? = some call)
    (hleft : ∀ call ∈ left, call.Ok getSourceType s.disk)
    (hscan : ∀ name project, s.cache.findProject name = some project → call.willScan name = true →
      left.any (CacheCall.willScan name) = true) :
    Kept getSourceType { s with calls := replaceAt s.calls i left } := by
  refine h.of_replaceAt rfl h.heap hleft fun name project hlisted hscanned hothers hnone => ?_
  refine h.right name project ⟨hlisted, hscanned, ?_⟩
  rw [pending_eq hcall hothers]
  by_contra hwill
  rw [Bool.not_eq_false] at hwill
  rw [hscan name project hlisted hwill] at hnone
  cases hnone

/-- A step of a call that does not scan, and that leaves the list of the project alone. -/
theorem Kept.right_of_same (h : s.Kept getSourceType) (hcall : s.calls[i]? = some call)
    (hlisted : s.cache.findProject name = some project)
    (hscanned : s.cache.isScanned name = true)
    (hothers : (s.calls.eraseIdx i).any (CacheCall.willScan name) = false)
    (hwill : call.willScan name = false) : s.Right getSourceType name project := by
  refine h.right name project ⟨hlisted, hscanned, ?_⟩
  rw [pending_eq hcall hothers, hwill]

/-! ### Scans -/

/-- A scan that is stored while nothing of it is stale makes the list right. -/
theorem Kept.scanned (h : s.Kept getSourceType) {stale : List RelPath}
    (hcall : s.calls[i]? = some (.scanned name project stale result))
    (hsafe : s.SafeCall getSourceType i (.scanned name project stale result)) (spare : ℕ) :
    Kept getSourceType { s with
      cache := s.cache.setProjectFiles name result spare
      calls := replaceAt s.calls i [.marking name] } := by
  have hstore := Cache.allocate_replaces h.heap name result spare
  refine h.of_replaceAt (t := { s with cache := s.cache.setProjectFiles name result spare }) rfl
    (hstore.heap.markScanned name) (List.forall_mem_singleton.mpr ?_)
    fun other listed hlisted hscanned hothers hnone => ?_
  · trivial
  · have hlisted' : s.cache.findProject other = some listed := hlisted
    have hlist : (s.cache.setProjectFiles name result spare).fileList =
        (s.cache.allocate name result spare).fileList := Cache.fileList_markScanned _ name
    by_cases hother : other = name
    · -- the project itself
      subst hother
      obtain hpending | ⟨rfl, howed⟩ := hsafe listed hlisted'
      · rw [hothers] at hpending
        cases hpending
      · intro path hpath
        have hfresh : path ∉ stale := by
          intro hmem
          rw [howed path hmem] at hpath
          cases hpath
        show (entriesOf path ((s.cache.setProjectFiles other result spare).fileList other)).Perm _
        rw [hlist, hstore.self]
        exact h.calls _ (List.mem_of_getElem? hcall) path hfresh
    · have hscanned' : s.cache.isScanned other = true := by
        have hmark : ((s.cache.allocate name result spare).markScanned name).isScanned other = true := hscanned
        rw [Cache.isScanned_markScanned, decide_eq_false hother, Bool.false_or] at hmark
        exact hmark
      refine (h.right_of_same hcall hlisted' hscanned' hothers ?_).of_fileList rfl ?_ fun _ => id
      · exact decide_eq_false fun heq => hother heq.symm
      · show (s.cache.setProjectFiles name result spare).fileList other = _
        rw [hlist, hstore.other other hother]

/-- The flag of a project is set once more, or before its scan. -/
theorem Kept.mark (h : s.Kept getSourceType) (hcall : s.calls[i]? = some call)
    (hleft : ∀ call ∈ left, call.Ok getSourceType s.disk) (hwill : ∀ name, call.willScan name = false)
    (hsafe : ∀ project, s.cache.findProject name = some project → s.cache.isScanned name = true ∨
      (s.calls.eraseIdx i).any (CacheCall.willScan name) = true ∨ left.any (CacheCall.willScan name) = true) :
    Kept getSourceType { s with
      cache := s.cache.markScanned name
      calls := replaceAt s.calls i left } := by
  refine h.of_replaceAt (t := { s with cache := s.cache.markScanned name }) rfl (h.heap.markScanned name) hleft
    fun other listed hlisted hscanned hothers hnone => ?_
  have hlisted' : s.cache.findProject other = some listed := hlisted
  have hscanned' : s.cache.isScanned other = true := by
    have hmark : (s.cache.markScanned name).isScanned other = true := hscanned
    rw [Cache.isScanned_markScanned, Bool.or_eq_true, decide_eq_true_eq] at hmark
    rcases hmark with rfl | hflag
    · rcases hsafe listed hlisted' with hflag | hscan | hscan
      · exact hflag
      · rw [hothers] at hscan
        cases hscan
      · rw [hnone] at hscan
        cases hscan
    · exact hflag
  refine (h.right_of_same hcall hlisted' hscanned' hothers (hwill other)).of_fileList rfl ?_ fun _ => id
  exact congrFun (Cache.fileList_markScanned s.cache name) other

/-! ### `RescanWith` -/

theorem Kept.rescanSet (h : s.Kept getSourceType) {projects : List Project}
    (hcall : s.calls[i]? = some (.rescanSet projects snapshot))
    (hsafe : s.SafeCall getSourceType i (.rescanSet projects snapshot)) {kept : List Text} :
    Kept getSourceType { s with
      cache := s.cache.setProjects projects
      calls := replaceAt s.calls i [.rescanKeep kept
        ((projects.filter snapshot.needsScan).map Project.qualifiedName) snapshot newNames] } := by
  refine h.of_replaceAt (t := { s with cache := s.cache.setProjects projects }) rfl
    (h.heap.of_files rfl rfl rfl) (List.forall_mem_singleton.mpr ?_)
    fun name project hlisted hscanned hothers hnone => ?_
  · trivial
  · have hfind : projects.find? (fun p => p.qualifiedName = name) = some project := hlisted
    have hmem : project ∈ projects := List.mem_of_find?_eq_some hfind
    have hname : project.qualifiedName = name := by simpa using List.find?_some hfind
    have hkept : snapshot.needsScan project = false := by
      by_contra hneeds
      rw [Bool.not_eq_false] at hneeds
      have hscan : ((projects.filter snapshot.needsScan).map Project.qualifiedName).contains name = true := by
        rw [List.contains_iff_mem, ← hname]
        exact List.mem_map_of_mem (List.mem_filter.mpr ⟨hmem, hneeds⟩)
      simp only [List.any_cons, CacheCall.willScan, hscan, Bool.true_or] at hnone
      cases hnone
    have hscanned' : s.cache.isScanned name = true := hscanned
    rcases hsafe project hmem with hneeds | hflag | hsame
    · rw [hkept] at hneeds
      cases hneeds
    · rw [hname, hscanned'] at hflag
      cases hflag
    · rw [hname] at hsame
      refine (h.right_of_same hcall hsame hscanned' hothers rfl).of_fileList rfl ?_ fun _ => id
      exact congrFun (Cache.fileList_of_files rfl rfl) name

theorem Kept.rescanKeep (h : s.Kept getSourceType) {kept toScan : List Text}
    (hcall : s.calls[i]? = some (.rescanKeep (name :: kept) toScan snapshot newNames))
    (hsafe : s.SafeCall getSourceType i (.rescanKeep (name :: kept) toScan snapshot newNames)) :
    Kept getSourceType { s with
      cache := s.cache.restore name (snapshot.files name)
      calls := replaceAt s.calls i [.rescanKeep kept toScan snapshot newNames] } := by
  obtain ⟨hslice, hflag⟩ := hsafe
  have hfiles := Cache.files_restore hslice
  refine h.of_replaceAt (t := { s with cache := s.cache.restore name (snapshot.files name) }) rfl
    (h.heap.of_files hfiles rfl rfl) (List.forall_mem_singleton.mpr ?_)
    fun other listed hlisted hscanned hothers hnone => ?_
  · trivial
  · have hlisted' : s.cache.findProject other = some listed := hlisted
    have hidle : s.pending other = false := by
      rw [pending_eq hcall hothers]
      simpa [CacheCall.willScan] using hnone
    have hscanned' : s.cache.isScanned other = true := by
      have hmark : (s.cache.markScanned name).isScanned other = true := hscanned
      rw [Cache.isScanned_markScanned, Bool.or_eq_true, decide_eq_true_eq] at hmark
      rcases hmark with rfl | hother
      · rcases hflag listed hlisted' with hscanned' | hpending
        · exact hscanned'
        · rw [hidle] at hpending
          cases hpending
      · exact hother
    refine (h.right other listed ⟨hlisted', hscanned', hidle⟩).of_fileList rfl ?_ fun _ => id
    exact congrFun (Cache.fileList_of_files hfiles rfl) other

theorem Kept.cleanUp (h : s.Kept getSourceType) {toScan : List Text}
    (hcall : s.calls[i]? = some (.rescanKeep [] toScan snapshot newNames)) :
    Kept getSourceType { s with
      cache := s.cache.cleanUp snapshot newNames
      calls := replaceAt s.calls i [.rescanScan toScan] } := by
  refine h.of_replaceAt (t := { s with cache := s.cache.cleanUp snapshot newNames }) rfl
    (h.heap.cleanUp snapshot newNames) (List.forall_mem_singleton.mpr ?_)
    fun name listed hlisted hscanned hothers hnone => ?_
  · trivial
  · have hflag : (s.cache.cleanUp snapshot newNames).isScanned name = true := hscanned
    rw [Cache.isScanned_cleanUp, Bool.and_eq_true, Bool.not_eq_true'] at hflag
    have hwill : (CacheCall.rescanKeep [] toScan snapshot newNames).willScan name = false := by
      simpa [CacheCall.willScan] using hnone
    refine (h.right_of_same hcall hlisted hflag.2 hothers hwill).of_fileList rfl ?_ fun _ => id
    show (s.cache.cleanUp snapshot newNames).content ((s.cache.cleanUp snapshot newNames).files name) = _
    rw [Cache.files_cleanUp, hflag.1]
    rfl

/-! ### Single files -/

/-- The entries that `UpsertFile` leaves of the file are those of a scan. -/
theorem perm_upserted {u : Upsert} {modTime : ℤ} {title : Text} {resolved : List FileInfo}
    (hok : (CacheCall.upsertRead u modTime title resolved).Ok getSourceType s.disk) (hstale : u.stale = false)
    (hfits : s.UpsertFits getSourceType u project) :
    (entriesOf u.relPath (Cache.upserted u.relPath modTime title resolved (s.cache.fileList u.name))).Perm
      (entriesOf u.relPath (freshScan getSourceType s.disk u.project)) := by
  obtain ⟨hpath, hread⟩ := hok
  obtain ⟨hstat, htitle, hresolved⟩ := hread hstale
  rw [UpsertFits, hstale] at hfits
  obtain ⟨-, hscan, hknown⟩ := hfits
  rw [Cache.entriesOf_upserted_self hpath]
  by_cases hnone : entriesOf u.relPath (s.cache.fileList u.name) = []
  · rw [if_pos hnone]
    exact hresolved.trans hscan
  · rw [if_neg hnone]
    -- the entries of the scan have the time and the title that are written
    let renew : FileInfo → FileInfo := fun file => { file with modTime, title }
    have hrenew : (entriesOf u.relPath (freshScan getSourceType s.disk u.project)).map renew =
        entriesOf u.relPath (freshScan getSourceType s.disk u.project) := by
      conv_rhs => rw [← List.map_id (entriesOf u.relPath _)]
      refine List.map_congr_left fun file hfile => ?_
      obtain ⟨-, hmod, hname⟩ := of_mem_resolveNow (hscan.mem_iff.mpr hfile)
      rw [hstat, Option.some.injEq] at hmod
      rw [htitle] at hname
      show ({ file with modTime, title } : FileInfo) = file
      rw [hmod, hname]
    have hmembership : ∀ files : List FileInfo,
        files.map renew = (files.map FileInfo.membership).map renew := by
      intro files
      rw [List.map_map]
      rfl
    show ((entriesOf u.relPath (s.cache.fileList u.name)).map renew).Perm _
    rw [← hrenew, hmembership, hmembership (entriesOf u.relPath (freshScan getSourceType s.disk u.project))]
    exact (hknown.resolve_left hnone).map renew

theorem settle_eq_false {other : Text} {p : RelPath} (h : s.settle name path other p = false) :
    s.owed other p = false ∨ (other = name ∧ p = path) := by
  rw [settle, Bool.and_eq_false_iff] at h
  simpa using h

theorem Kept.upsert (h : s.Kept getSourceType) {u : Upsert} {modTime : ℤ} {title : Text}
    {resolved : List FileInfo} (hcall : s.calls[i]? = some (.upsertRead u modTime title resolved))
    (hsafe : s.SafeCall getSourceType i (.upsertRead u modTime title resolved)) (spare : ℕ) :
    Kept getSourceType { s with
      cache := s.cache.upsertFile u.name u.relPath modTime title resolved spare
      calls := replaceAt s.calls i []
      owed := if u.stale then s.owed else s.settle u.name u.relPath } := by
  have hok := h.calls _ (List.mem_of_getElem? hcall)
  obtain ⟨files, hreplaces, hperm⟩ :=
    Cache.upsertFile_replaces h.heap u.name u.relPath modTime title resolved spare
  refine h.of_replaceAt (t := { s with
      cache := s.cache.upsertFile u.name u.relPath modTime title resolved spare
      owed := if u.stale then s.owed else s.settle u.name u.relPath }) rfl hreplaces.heap
    (fun call hmem => absurd hmem List.not_mem_nil) fun name project hlisted hscanned hothers hnone => ?_
  have hlisted' : s.cache.findProject name = some project := by
    rw [← hlisted, Cache.findProject, Cache.findProject, hreplaces.projects]
  have hscanned' : s.cache.isScanned name = true := by
    rw [← hscanned, Cache.isScanned, Cache.isScanned, hreplaces.scanned]
  have hright := h.right_of_same hcall hlisted' hscanned' hothers rfl
  have hidle : s.pending name = false := pending_eq hcall hothers
  by_cases hname : name = u.name
  · subst hname
    have hfits : s.UpsertFits getSourceType u project := by
      rcases hsafe project hlisted' with hflag | hpending | hfits
      · rw [hscanned'] at hflag
        cases hflag
      · rw [hidle] at hpending
        cases hpending
      · exact hfits
    intro path hpath
    show (entriesOf path ((s.cache.upsertFile u.name u.relPath modTime title resolved spare).fileList
      u.name)).Perm _
    rw [hreplaces.self]
    refine (perm_entriesOf hperm path).trans ?_
    by_cases hsame : path = u.relPath
    · subst hsame
      cases hstale : u.stale with
      | true =>
        -- another update is owed
        have howed : s.owed u.name u.relPath = false := by simpa [hstale] using hpath
        rw [UpsertFits, hstale, if_pos rfl, howed] at hfits
        cases hfits
      | false =>
        have hproject : project = u.project := by
          rw [UpsertFits, hstale] at hfits
          exact hfits.1
        show (entriesOf u.relPath _).Perm (entriesOf u.relPath (freshScan getSourceType s.disk project))
        rw [hproject]
        exact perm_upserted hok hstale hfits
    · rw [Cache.entriesOf_upserted_of_ne hok.1 hsame]
      refine hright path ?_
      have hpath' : (if u.stale then s.owed else s.settle u.name u.relPath) u.name path = false := hpath
      split at hpath'
      · exact hpath'
      · exact (settle_eq_false hpath').resolve_right fun heq => hsame heq.2
  · refine hright.of_fileList rfl (hreplaces.other name hname) fun path hpath => ?_
    have hpath' : (if u.stale then s.owed else s.settle u.name u.relPath) name path = false := hpath
    split at hpath'
    · exact hpath'
    · exact (settle_eq_false hpath').resolve_right fun heq => hname heq.1

/-- `RemoveFile` of a file that is gone, or that will be updated. -/
theorem Kept.removeFile (h : s.Kept getSourceType)
    (hsafe : s.freshEntries getSourceType name path = [] ∨ s.owed name path = true) :
    Kept getSourceType { s with
      cache := s.cache.removeFile name path
      owed := if s.freshEntries getSourceType name path = [] then s.settle name path else s.owed } := by
  have hreplaces := Cache.removeFile_replaces h.heap name path
  refine ⟨hreplaces.heap, h.calls, fun other project hsettled => ?_⟩
  have hlisted : s.cache.findProject other = some project := by
    rw [← hsettled.listed, Cache.findProject, Cache.findProject, hreplaces.projects]
  have hscanned : s.cache.isScanned other = true := by
    rw [← hsettled.scanned, Cache.isScanned, Cache.isScanned, hreplaces.scanned]
  have hright := h.right other project ⟨hlisted, hscanned, hsettled.idle⟩
  intro p hp
  have hp' : (if s.freshEntries getSourceType name path = [] then s.settle name path else s.owed) other p =
    false := hp
  show (entriesOf p ((s.cache.removeFile name path).fileList other)).Perm
    (entriesOf p (freshScan getSourceType s.disk project))
  by_cases hother : other = name
  · subst hother
    rw [hreplaces.self]
    by_cases hpath : p = path
    · subst hpath
      -- an update that is owed would have to be the one of this file
      have hgone : entriesOf p (freshScan getSourceType s.disk project) = [] := by
        rcases hsafe with hgone | howed
        · rw [freshEntries, hlisted] at hgone
          exact hgone
        · by_contra hback
          have hfresh : ¬ s.freshEntries getSourceType other p = [] := by
            rw [freshEntries, hlisted]
            exact hback
          rw [if_neg hfresh, howed] at hp'
          cases hp'
      rw [hgone, entriesOf_eq_nil fun file hfile => by simpa using (List.mem_filter.mp hfile).2]
    · rw [entriesOf_filter_ne hpath]
      refine hright p ?_
      split at hp'
      · exact (settle_eq_false hp').resolve_right fun heq => hpath heq.2
      · exact hp'
  · rw [hreplaces.other other hother]
    refine hright p ?_
    split at hp'
    · exact (settle_eq_false hp').resolve_right fun heq => hother heq.1
    · exact hp'

/-- A change that touches only its own file. -/
theorem Kept.change (h : s.Kept getSourceType) {path : Path}
    (hsafe : s.Safe getSourceType (.change path disk)) :
    Kept getSourceType { s with
      disk, calls := s.calls.map (CacheCall.touch path), owed := s.owe path } := by
  refine ⟨h.heap, fun call hmem => ?_, fun name project hsettled => ?_⟩
  · obtain ⟨old, hold, rfl⟩ := List.mem_map.mp hmem
    exact (h.calls old hold).touch (hsafe.2 old hold)
  · have hidle : s.pending name = false := by
      have hmap : (s.calls.map (CacheCall.touch path)).any (CacheCall.willScan name) = false := hsettled.idle
      rw [List.any_map] at hmap
      rw [pending, ← hmap]
      congr 1
      funext call
      exact (call.willScan_touch name path).symm
    have hlisted : s.cache.findProject name = some project := hsettled.listed
    have hright := h.right name project ⟨hlisted, hsettled.scanned, hidle⟩
    intro p hp
    have hp' : s.owe path name p = false := hp
    rw [owe, Bool.or_eq_false_iff, hlisted, Option.any_some, decide_eq_false_iff_not] at hp'
    have htouches := hsafe.1 project (List.mem_of_find?_eq_some hlisted)
    exact (hright p hp'.1).trans (perm_entriesOf_of_ne htouches hp'.2).symm

/-! ## Runs -/

theorem Kept.advance (h : s.Kept getSourceType) (hcall : s.calls[i]? = some call)
    (hsafe : s.SafeCall getSourceType i call) (spare : ℕ) :
    Kept getSourceType { (s.advance getSourceType spare call).1 with
      calls := replaceAt s.calls i (s.advance getSourceType spare call).2 } := by
  have hok := h.calls call (List.mem_of_getElem? hcall)
  -- a call that only reads keeps the cache; the writes are lemmas of their own
  cases call with
  | refresh name =>
    simp only [CacheState.advance]
    split
    · rename_i hnone
      refine h.of_reading hcall (by simp) fun other project hlisted hwill => ?_
      have hname : name = other := of_decide_eq_true hwill
      rw [hname, hlisted] at hnone
      cases hnone
    · rename_i project _
      refine h.of_reading hcall (List.forall_mem_singleton.mpr ?_) fun other _ _ hwill => ?_
      · intro path _
        simp [entriesOf]
      · simpa [CacheCall.willScan] using hwill
  | scanning name project seen stale result =>
    refine h.of_reading hcall (List.forall_mem_singleton.mpr ?_) fun other _ _ hwill => ?_
    · intro path hpath
      have hrest := perm_entriesOf_found (fun _ => true) (hok path hpath)
      simp only [Bool.true_or, List.filter_true] at hrest
      exact (perm_entriesOf (List.perm_insertionSort _ _) path).trans hrest
    · simpa [CacheState.advance, CacheCall.willScan] using hwill
  | scanned name project stale result => exact h.scanned hcall hsafe spare
  | marking name =>
    refine h.mark hcall (by simp [CacheState.advance]) (fun _ => rfl) fun project hlisted => ?_
    rcases hsafe project hlisted with hflag | hpending
    · exact .inl hflag
    · rw [pending, any_eq_eraseIdx hcall, Bool.or_eq_true] at hpending
      exact .inr (.inl (hpending.resolve_right (by simp [CacheCall.willScan])))
  | ensure name =>
    simp only [CacheState.advance]
    split
    · exact h.of_reading hcall (by simp) fun _ _ _ hwill => by cases hwill
    · refine h.mark hcall (List.forall_mem_singleton.mpr ?_) (fun _ => rfl) fun _ _ => .inr (.inr ?_)
      · trivial
      · simp [CacheCall.willScan]
  | rescan projects =>
    refine h.of_reading hcall (List.forall_mem_singleton.mpr ?_) fun _ _ _ hwill => by cases hwill
    trivial
  | rescanSet projects snapshot =>
    simp only [CacheState.advance, List.partition_eq_filter_filter]
    exact h.rescanSet hcall hsafe
  | rescanKeep kept toScan snapshot newNames =>
    rcases kept with _ | ⟨name, kept⟩
    · exact h.cleanUp hcall
    · exact h.rescanKeep hcall hsafe
  | rescanScan toScan =>
    refine h.of_reading hcall (fun call hmem => ?_) fun other _ _ hwill => ?_
    · obtain ⟨name, -, rfl⟩ := List.mem_map.mp hmem
      trivial
    · simpa [CacheState.advance, CacheCall.willScan] using hwill
  | upsert u =>
    simp only [CacheState.advance]
    split
    · exact h.of_reading hcall (by simp) fun _ _ _ hwill => by cases hwill
    · rename_i modTime hstat
      refine h.of_reading hcall (List.forall_mem_singleton.mpr ?_) fun _ _ _ hwill => by cases hwill
      exact fun _ => hstat
  | upsertStat u modTime =>
    refine h.of_reading hcall (List.forall_mem_singleton.mpr ?_) fun _ _ _ hwill => by cases hwill
    exact fun hfresh => ⟨hok hfresh, rfl⟩
  | upsertTitle u modTime title =>
    refine h.of_reading hcall (List.forall_mem_singleton.mpr ?_) fun _ _ _ hwill => by cases hwill
    refine ⟨fun file hfile => (of_mem_resolveNow hfile).1, fun hfresh => ?_⟩
    exact ⟨(hok hfresh).1, (hok hfresh).2, .refl _⟩
  | upsertRead u modTime title resolved => exact h.upsert hcall hsafe spare

theorem Kept.read (h : s.Kept getSourceType) {stale : List RelPath}
    (hcall : s.calls[i]? = some (.scanning name project seen stale result)) (keys : List (Text × RelPath)) :
    Kept getSourceType { s with
      calls := replaceAt s.calls i [.scanning name project (keys ++ seen) stale
        (result ++ found getSourceType s.disk project seen fun key => keys.contains key)] } := by
  have hok := h.calls _ (List.mem_of_getElem? hcall)
  refine h.of_reading hcall (List.forall_mem_singleton.mpr ?_) fun other _ _ hwill => ?_
  · intro path hpath
    refine (perm_entriesOf_found _ (hok path hpath)).trans (.of_eq ?_)
    refine List.filter_congr fun file _ => ?_
    simp
  · simpa [CacheCall.willScan] using hwill

theorem Kept.step {e : CacheEvent} (h : s.Kept getSourceType) (hsafe : s.Safe getSourceType e)
    (hstep : s.step getSourceType e = some t) : t.Kept getSourceType := by
  cases e with
  | change path disk =>
    obtain rfl := Option.some.inj hstep
    exact h.change hsafe
  | start op =>
    obtain rfl := Option.some.inj hstep
    refine ⟨h.heap, fun call hmem => ?_, fun name project hsettled => ?_⟩
    · rcases List.mem_append.mp hmem with hold | hnew
      · exact h.calls call hold
      · rw [List.mem_singleton] at hnew
        rw [hnew]
        cases op <;> trivial
    · refine h.right name project ⟨hsettled.listed, hsettled.scanned, ?_⟩
      have hidle : (s.calls ++ [op.call]).any (CacheCall.willScan name) = false := hsettled.idle
      rw [List.any_append, Bool.or_eq_false_iff] at hidle
      exact hidle.1
  | removeFile name path =>
    obtain rfl := Option.some.inj hstep
    exact h.removeFile hsafe
  | read i keys =>
    simp only [CacheState.step] at hstep
    split at hstep
    · rename_i hcall
      obtain rfl := Option.some.inj hstep
      exact h.read hcall keys
    · cases hstep
  | advance i spare =>
    obtain ⟨call, hcall, rfl⟩ := Option.map_eq_some_iff.mp hstep
    exact h.advance hcall (hsafe call hcall) spare

variable (getSourceType s) in
/-- The lists of the scanned projects are those of a fresh scan, in some order. -/
def UpToDate : Prop :=
  ∀ name project, s.cache.findProject name = some project → s.cache.isScanned name = true →
    (s.cache.fileList name).Perm (freshScan getSourceType s.disk project)

variable (getSourceType s) in
/-- Every change of a file of the projects was followed by its update. -/
def NothingOwed : Prop :=
  ∀ name project, s.cache.findProject name = some project → s.cache.isScanned name = true →
    ∀ file ∈ s.cache.fileList name ++ freshScan getSourceType s.disk project,
      s.owed name file.fullPath = false

theorem Kept.upToDate (h : s.Kept getSourceType) (hidle : s.calls = [])
    (howed : s.NothingOwed getSourceType) : s.UpToDate getSourceType := by
  intro name project hlisted hscanned
  have hpending : s.pending name = false := by
    rw [pending, hidle]
    rfl
  have hright := h.right name project ⟨hlisted, hscanned, hpending⟩
  refine perm_of_entriesOf fun path => ?_
  by_cases hpath : s.owed name path = true
  · -- such a file is neither in the list nor on the disk
    have hnone : ∀ file ∈ s.cache.fileList name ++ freshScan getSourceType s.disk project,
        file.fullPath ≠ path := by
      rintro file hfile rfl
      rw [howed name project hlisted hscanned file hfile] at hpath
      cases hpath
    rw [entriesOf_eq_nil fun file hfile => hnone file (List.mem_append_left _ hfile),
      entriesOf_eq_nil fun file hfile => hnone file (List.mem_append_right _ hfile)]
  · rw [Bool.not_eq_true] at hpath
    exact hright path hpath

/-- From a cache that is up to date, and in which no call is in progress, a run of safe steps leaves the cache
up to date once all calls have ended and every change was followed by its update. -/
theorem run_upToDate (s₀ : CacheState) (hheap : s₀.cache.HeapOk) (hidle₀ : s₀.calls = [])
    (hstart : s₀.UpToDate getSourceType) (events : List CacheEvent) (t : CacheState)
    (hsafe : Along (CacheState.step getSourceType) (Safe getSourceType) s₀ events)
    (hrun : run (CacheState.step getSourceType) s₀ events = some t) (hidle : t.calls = [])
    (howed : t.NothingOwed getSourceType) : t.UpToDate getSourceType := by
  have hkept : s₀.Kept getSourceType := by
    refine ⟨hheap, fun call hmem => ?_, fun name project hsettled path _ => ?_⟩
    · rw [hidle₀] at hmem
      cases hmem
    · exact perm_entriesOf (hstart name project hsettled.listed hsettled.scanned) path
  have hend : t.Kept getSourceType :=
    run_invariant_along (fun _ _ _ h hs hstep => h.step hs hstep) hkept hsafe hrun
  exact hend.upToDate hidle howed

instance (u : Upsert) (project : Project) : Decidable (s.UpsertFits getSourceType u project) :=
  inferInstanceAs (Decidable (ite _ _ _))

instance (i : ℕ) : ∀ call, Decidable (s.SafeCall getSourceType i call)
  | .scanned name project stale _ =>
    inferInstanceAs (Decidable (∀ listed ∈ s.cache.findProject name, _ ∨
      (listed = project ∧ ∀ path ∈ stale, s.owed name path = true)))
  | .marking name => inferInstanceAs (Decidable (∀ _ ∈ s.cache.findProject name, _ ∨ _))
  | .rescanSet projects _ => inferInstanceAs (Decidable (∀ _ ∈ projects, _ ∨ _ ∨ _))
  | .rescanKeep (name :: _) _ _ _ =>
    inferInstanceAs (Decidable (_ ∧ ∀ _ ∈ s.cache.findProject name, _ ∨ _))
  | .upsertRead u _ _ _ =>
    inferInstanceAs (Decidable (∀ listed ∈ s.cache.findProject u.name, _ ∨ _ ∨
      s.UpsertFits getSourceType u listed))
  | .rescanKeep [] _ _ _ | .refresh _ | .scanning _ _ _ _ _ | .ensure _ | .rescan _ | .rescanScan _ | .upsert _
  | .upsertStat _ _ | .upsertTitle _ _ _ => .isTrue trivial

instance (disk : Disk) (path : Path) : ∀ call : CacheCall,
    Decidable (call.OnlyTouched getSourceType s.disk disk path)
  | .scanning _ project _ _ _ | .scanned _ project _ _ =>
    inferInstanceAs (Decidable (OnlyTouches getSourceType s.disk disk path project))
  | .upsertStat u _ | .upsertTitle u _ _ | .upsertRead u _ _ _ =>
    inferInstanceAs (Decidable (u.path ≠ path → _ ∧ _ ∧ List.Perm _ _))
  | .refresh _ | .marking _ | .ensure _ | .rescan _ | .rescanSet _ _ | .rescanKeep _ _ _ _ | .rescanScan _
  | .upsert _ => .isTrue trivial

instance : ∀ e, Decidable (s.Safe getSourceType e)
  | .change path disk =>
    inferInstanceAs (Decidable
      ((∀ project ∈ s.cache.projects, OnlyTouches getSourceType s.disk disk path project) ∧
        ∀ call ∈ s.calls, call.OnlyTouched getSourceType s.disk disk path))
  | .removeFile _ _ => inferInstanceAs (Decidable (_ ∨ _))
  | .advance i _ => inferInstanceAs (Decidable (∀ call ∈ s.calls[i]?, s.SafeCall getSourceType i call))
  | .start _ | .read _ _ => .isTrue trivial

/-! ## Three runs -/

/-- A project `p` with some files. -/
def sampleDisk (files : List (Text × ℤ)) : Disk where
  fs := .dir (.cons ['p'] (.dir (files.foldr
    (fun file rest => .cons (file.1 ++ ['.', 'm', 'd']) (.file ⟨[], file.2⟩) rest) .nil)) .nil)
  rules := ⟨false, fun _ => .unmatched⟩

def sampleFile (name : Text) : Path := [['p'], name ++ ['.', 'm', 'd']]

/-- The project as it is listed, with one source. -/
def sampleListing : Project := ⟨['p'], [['p']], [⟨['d'], .tree, ['d'], some [['p']], [], false⟩], []⟩

def sampleStart (files : List (Text × ℤ)) : CacheState := { disk := sampleDisk files }

/-- `RescanWith` lists the project, and its scan begins. -/
def sampleScan : List CacheEvent :=
  .start (.rescanWith [sampleListing]) :: List.replicate 5 (.advance 0 0)

/-- A file is created, and `UpsertFile` runs while the scan does. -/
def sampleUpsert : List CacheEvent :=
  [.change (sampleFile ['b']) (sampleDisk [(['a'], 1), (['b'], 2)]),
    .start (.upsertFile ['p'] sampleListing (sampleFile ['b']))] ++ List.replicate 4 (.advance 1 0)

/-- What is to be said of the end of a run with one project in the list, in a form that can be evaluated. -/
def sampleEnd (names : List Text) (t : CacheState) : Bool :=
  t.calls.isEmpty && t.cache.projects = [sampleListing] && t.cache.isScanned ['p'] &&
    ((t.cache.fileList ['p'] ++ freshScan (fun _ => none) t.disk sampleListing).all fun file =>
      !t.owed ['p'] file.fullPath) &&
    (t.cache.fileList ['p']).map FileInfo.name = names

theorem of_sampleEnd {names : List Text} (h : sampleEnd names t = true) :
    t.calls = [] ∧ t.cache.findProject ['p'] = some sampleListing ∧ t.cache.isScanned ['p'] = true ∧
      t.NothingOwed (fun _ => none) ∧ (t.cache.fileList ['p']).map FileInfo.name = names := by
  simp only [sampleEnd, Bool.and_eq_true, List.isEmpty_iff, decide_eq_true_eq] at h
  obtain ⟨⟨⟨⟨hcalls, hprojects⟩, hscanned⟩, howed⟩, hnames⟩ := h
  refine ⟨hcalls, ?_, hscanned, fun name project hlisted _ => ?_, hnames⟩
  · rw [Cache.findProject, hprojects]
    rfl
  · rw [Cache.findProject, hprojects, List.find?_singleton] at hlisted
    split at hlisted
    · rename_i hname
      obtain rfl : ['p'] = name := of_decide_eq_true hname
      obtain rfl := Option.some.inj hlisted
      intro file hfile
      simpa using List.all_eq_true.mp howed file hfile
    · cases hlisted

/-- A run that ends with a list that a scan does not give. -/
theorem exists_not_upToDate {events : List CacheEvent} {names : List Text}
    (h : (run (CacheState.step fun _ => none) s events).any (fun t => sampleEnd names t &&
      !decide ((t.cache.fileList ['p']).Perm (freshScan (fun _ => none) t.disk sampleListing))) = true) :
    ∃ t, run (CacheState.step fun _ => none) s events = some t ∧ t.calls = [] ∧
      t.NothingOwed (fun _ => none) ∧ ¬ t.UpToDate (fun _ => none) ∧
      (t.cache.fileList ['p']).map FileInfo.name = names := by
  obtain ⟨t, hrun, ht⟩ := exists_run_of_any h
  rw [Bool.and_eq_true, Bool.not_eq_true', decide_eq_false_iff_not] at ht
  obtain ⟨hidle, hlisted, hscanned, howed, hnames⟩ := of_sampleEnd ht.1
  exact ⟨t, hrun, hidle, howed, fun hfresh => ht.2 (hfresh _ _ hlisted hscanned), hnames⟩

/-- The scan comes to the new file after it was created, and then `UpsertFile` does. -/
theorem run_upToDate_created :
    ∃ t, run (CacheState.step fun _ => none) (sampleStart [(['a'], 1)])
        (sampleScan ++ sampleUpsert ++ List.replicate 3 (.advance 0 0)) = some t ∧
      t.UpToDate (fun _ => none) ∧
      (t.cache.fileList ['p']).map FileInfo.name = [['b', '.', 'm', 'd'], ['a', '.', 'm', 'd']] := by
  obtain ⟨t, hrun, ht⟩ : ∃ t, run (CacheState.step fun _ => none) (sampleStart [(['a'], 1)])
      (sampleScan ++ sampleUpsert ++ List.replicate 3 (.advance 0 0)) = some t ∧
      sampleEnd [['b', '.', 'm', 'd'], ['a', '.', 'm', 'd']] t = true :=
    exists_run_of_any (by decide +kernel)
  obtain ⟨hidle, -, -, howed, hnames⟩ := of_sampleEnd ht
  refine ⟨t, hrun, ?_, hnames⟩
  exact run_upToDate (sampleStart [(['a'], 1)]) Cache.heapOk_new rfl (fun _ _ h => by cases h) _ t
    (by decide +kernel) hrun hidle howed

/-- A scan has read the directory before a file is created, and stores what it has after `UpsertFile`; and
`RescanWith` restores a slice after `RemoveFile` has moved its entries. -/
theorem update_lost :
    (∃ t, run (CacheState.step fun _ => none) (sampleStart [(['a'], 1)])
        (sampleScan ++ [.read 0 [(['d'], rel [['p']] (sampleFile ['b']))]] ++ sampleUpsert ++
          List.replicate 3 (.advance 0 0)) = some t ∧
      t.calls = [] ∧ t.NothingOwed (fun _ => none) ∧ ¬ t.UpToDate (fun _ => none) ∧
      (t.cache.fileList ['p']).map FileInfo.name = [['a', '.', 'm', 'd']]) ∧
    ∃ t, run (CacheState.step fun _ => none) (sampleStart [(['a'], 2), (['b'], 1)])
        (sampleScan ++ List.replicate 3 (.advance 0 0) ++
          [.start (.rescanWith [sampleListing]), .advance 0 0, .advance 0 0,
            .change (sampleFile ['a']) (sampleDisk [(['b'], 1)]),
            .removeFile ['p'] (rel [['p']] (sampleFile ['a'])),
            .advance 0 0, .advance 0 0, .advance 0 0]) = some t ∧
      t.calls = [] ∧ t.NothingOwed (fun _ => none) ∧ ¬ t.UpToDate (fun _ => none) ∧
      (t.cache.fileList ['p']).map FileInfo.name = [['b', '.', 'm', 'd'], ['b', '.', 'm', 'd']] := by
  refine ⟨exists_not_upToDate ?_, exists_not_upToDate ?_⟩
  · decide +kernel
  · decide +kernel

end CacheState

end Builderbot.Penpal
