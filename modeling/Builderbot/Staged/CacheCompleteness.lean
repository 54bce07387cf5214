import Builderbot.Staged.DiffCache

/-!
# What a cached commit promises

A commit counts as cached when its `index.json` exists, and later runs then never collect it again.
`write_cache_dir` renames the index into place before it writes the diffs and stops at the first
error, so a failed write after that point leaves an index whose files have no diff.

`cached_commits_complete` is about every sequence of collections and reads in which this does not
happen: there a cached commit has all its diffs, and a file is reported as not found only when the
index or the remote says so. `failed_write_hides_file` is one failed write.
-/

namespace Builderbot.Staged

open Builderbot.Lib.Text Builderbot.Git

/-- Something that touches the cache of a branch. `collect` is the background collection of
`spawn_cache_branch_diff`. -/
inductive CacheEvent where
  | collect (headSha : Text) (commitShas : List Text) (env : CollectEnv)
  | getDiffFiles (ctx : BranchDiffContext) (commitSha : Option Text) (scope : DiffScope)
      (env : CollectEnv)
  | getFileDiff (ctx : BranchDiffContext) (commitSha : Text) (scope : DiffScope) (path : Text)
      (env : CollectEnv)
  | deleteBranchCache (survives : CacheDir × CacheFile → Bool)

/-- What an event does to the disk. -/
def cacheStep (pathToCacheKey : Text → Text) (base64 : Base64) (branchId : Text) (d : Disk) :
    CacheEvent → Option Disk
  | .collect headSha commitShas env =>
    some (collectAndCache pathToCacheKey base64 branchId headSha commitShas env d).1
  | .getDiffFiles ctx commitSha scope env =>
    some (getDiffFiles pathToCacheKey base64 branchId ctx commitSha scope env d).1
  | .getFileDiff ctx commitSha scope path env =>
    some (getFileDiff pathToCacheKey base64 branchId ctx commitSha scope path env d).1
  | .deleteBranchCache survives => some (deleteBranchCache survives d)

/-! ## The condition on failures -/

/-- The index is renamed into place, so the save goes on to the diffs. -/
def SaveEnv.ReachesDiffs (env : SaveEnv) : Prop :=
  env.fails .createDir = none ∧ env.fails .writeIndex = none ∧ env.fails .renameIndex = none

/-- No diff fails once the index is in place. -/
def SaveEnv.Intact (env : SaveEnv) (paths : List Text) : Prop :=
  env.ReachesDiffs →
    ∀ path ∈ paths, env.fails (.writeDiff path) = none ∧ env.fails (.renameDiff path) = none

/-- A failed removal of a commit directory does not keep the index without the diffs. -/
def RemovesIndexFirst (survives : CacheDir × CacheFile → Bool) (sha : Text) : Prop :=
  survives (.commit sha, .index) = true → ∀ key, survives (.commit sha, .diff key) = true

/-- The saves and removals of one collection leave no index without its diffs. -/
def CollectEnv.Intact (env : CollectEnv) (d : Disk) (headSha : Text) (commitShas : List Text) :
    Prop :=
  (∀ out, env.script headSha (uncachedShas d commitShas) = .output out →
    ∀ (i : ℕ) (commit : CollectScriptCommit), out.commits[i]? = some commit →
      (env.commitSave i).Intact (commit.files.filterMap CollectScriptFile.canonicalPath)) ∧
    ∀ sha ∉ commitShas, RemovesIndexFirst env.survives sha

/-- The condition for an event, if it collects at all. -/
def CacheEvent.Intact (pathToCacheKey : Text → Text) (d : Disk) : CacheEvent → Prop
  | .collect headSha commitShas env => env.Intact d headSha commitShas
  | .getDiffFiles ctx commitSha scope env =>
    cachedDiffFiles ctx commitSha scope d = none → ∀ headSha commitShas,
      ctx.collectArgs scope commitSha = .ok (headSha, commitShas) →
        env.Intact d headSha commitShas
  | .getFileDiff ctx commitSha scope path env =>
    cachedFileDiff pathToCacheKey commitSha scope path d = none → ∀ headSha commitShas,
      ctx.collectArgs scope (some commitSha) = .ok (headSha, commitShas) →
        env.Intact d headSha commitShas
  | .deleteBranchCache survives => ∀ sha, RemovesIndexFirst survives sha

variable {ctx : BranchDiffContext} {p : CacheDir × CacheFile} {commitSha : Option Text} {dir : CacheDir}
    {scope : DiffScope} {sha : Text} {env : SaveEnv}

section Completeness

variable {pathToCacheKey : Text → Text} {base64 : Base64} {branchId : Text} {d : Disk}

/-! ## One save -/

/-- Writing a file touches only that file and its temporary one. -/
theorem lookup_writeAndRename_of_ne {tmp file : CacheFile}
    (htmp : p ≠ (dir, tmp)) (hfile : p ≠ (dir, file)) (content : Content)
    (writeError renameError : Option Text) (d : Disk) :
    (writeAndRename dir tmp file content writeError renameError d).1.lookup p = d.lookup p := by
  unfold writeAndRename
  split
  · exact AList.lookup_insert_ne htmp
  · exact AList.lookup_insert_ne htmp
  · rw [AList.lookup_insert_ne hfile, AList.lookup_erase_ne htmp]

/-- The loop over the diffs touches only diffs and their temporary files. -/
theorem lookup_writeDiffs_of_ne (hp : ∀ key, p ≠ (dir, .diffTmp key) ∧ p ≠ (dir, .diff key)) (env : SaveEnv)
    (entries : List (Σ _ : Text, FileDiff)) (d : Disk) :
    (writeDiffs pathToCacheKey dir env entries d).1.lookup p = d.lookup p := by
  induction entries generalizing d with
  | nil => rfl
  | cons e rest ih =>
    have hframe := lookup_writeAndRename_of_ne (hp (pathToCacheKey e.1)).1
      (hp (pathToCacheKey e.1)).2 (.fileDiff e.2) (env.fails (.writeDiff e.1))
      (env.fails (.renameDiff e.1)) d
    rw [← hframe, writeDiffs]
    split
    · rename_i heq
      rw [heq]
    · rename_i heq
      rw [ih, heq]

/-- When no diff fails, the file of a key holds the last diff written under it, or is untouched if
none was. -/
theorem lookup_writeDiffs {entries : List (Σ _ : Text, FileDiff)}
    (hok : ∀ e ∈ entries, env.fails (.writeDiff e.1) = none ∧ env.fails (.renameDiff e.1) = none)
    (key : Text) (d : Disk) :
    (∃ e ∈ entries, pathToCacheKey e.1 = key ∧
        (writeDiffs pathToCacheKey dir env entries d).1.lookup (dir, .diff key) =
          some (.fileDiff e.2)) ∨
      ((∀ e ∈ entries, pathToCacheKey e.1 ≠ key) ∧
        (writeDiffs pathToCacheKey dir env entries d).1.lookup (dir, .diff key) =
          d.lookup (dir, .diff key)) := by
  induction entries generalizing d with
  | nil => exact .inr ⟨by simp, rfl⟩
  | cons e rest ih =>
    obtain ⟨⟨hwrite, hrename⟩, hrest⟩ := List.forall_mem_cons.mp hok
    simp only [writeDiffs, writeAndRename, hwrite, hrename]
    rcases ih hrest ((d.erase (dir, .diffTmp (pathToCacheKey e.1))).insert
        (dir, .diff (pathToCacheKey e.1)) (.fileDiff e.2)) with ⟨e', he', hkey, hlook⟩ | ⟨hne, hlook⟩
    · exact .inl ⟨e', List.mem_cons_of_mem e he', hkey, hlook⟩
    · -- no later diff has this key, so the file is as `e` left it
      by_cases hkey : pathToCacheKey e.1 = key
      · refine .inl ⟨e, List.mem_cons_self, hkey, ?_⟩
        rw [hlook, ← hkey, AList.lookup_insert]
      · refine .inr ⟨List.forall_mem_cons.mpr ⟨hkey, hne⟩, ?_⟩
        rw [hlook, AList.lookup_insert_ne (by simpa using fun h => hkey h.symm),
          AList.lookup_erase_ne (by simp)]

/-- A save writes only to its own directory. -/
theorem lookup_writeCacheDir_of_ne {dir : CacheDir} {p : CacheDir × CacheFile} (hp : p.1 ≠ dir)
    (index : Content) (fileDiffs : Table Text FileDiff) (env : SaveEnv) (d : Disk) :
    (writeCacheDir pathToCacheKey dir index fileDiffs env d).1.lookup p = d.lookup p := by
  have hne : ∀ file, p ≠ (dir, file) := fun file h => hp (congrArg Prod.fst h)
  have hindex := lookup_writeAndRename_of_ne (hne .indexTmp) (hne .index) index
    (env.fails .writeIndex) (env.fails .renameIndex) d
  unfold writeCacheDir
  split
  · rfl
  · rw [← hindex]
    split
    · rename_i heq
      rw [heq]
    · rename_i heq
      rw [lookup_writeDiffs_of_ne (fun key => ⟨hne _, hne _⟩), heq]

/-- A save that does not reach the diffs changes no file that is read. -/
theorem lookup_writeCacheDir_of_not_reachesDiffs (henv : ¬ env.ReachesDiffs)
    (hp : p ≠ (dir, .indexTmp)) (index : Content)
    (fileDiffs : Table Text FileDiff) (d : Disk) :
    (writeCacheDir pathToCacheKey dir index fileDiffs env d).1.lookup p = d.lookup p := by
  unfold writeCacheDir
  split
  · rfl
  · rename_i hcreate
    cases hwrite : env.fails .writeIndex with
    | some err =>
      simp only [writeAndRename]
      exact AList.lookup_insert_ne hp
    | none =>
      cases hrename : env.fails .renameIndex with
      | some err =>
        simp only [writeAndRename]
        exact AList.lookup_insert_ne hp
      | none => exact absurd ⟨hcreate, hwrite, hrename⟩ henv

/-- A save that reaches the diffs starts them with the index in place. -/
theorem writeCacheDir_of_reachesDiffs (henv : env.ReachesDiffs) (dir : CacheDir)
    (index : Content) (fileDiffs : Table Text FileDiff) (d : Disk) :
    writeCacheDir pathToCacheKey dir index fileDiffs env d =
      writeDiffs pathToCacheKey dir env (env.order fileDiffs)
        ((d.erase (dir, .indexTmp)).insert (dir, .index) index) := by
  obtain ⟨hcreate, hwrite, hrename⟩ := henv
  simp only [writeCacheDir, writeAndRename, hcreate, hwrite, hrename]

/-! ## The entry of a commit -/

/-- The cached entry of a commit holds what it lists: its index was parsed together with a table of
diffs, and under the key of each path there is a diff of that table kept under this key. -/
def CompleteEntry (pathToCacheKey : Text → Text) (base64 : Base64) (d : Disk) (sha : Text) : Prop :=
  ∃ index entries fileDiffs, d.lookup (.commit sha, .index) = some (.commitIndex index) ∧
    parseScriptFiles base64 entries = some (index.files, fileDiffs) ∧
      ∀ path ∈ fileDiffs, ∃ other diff, pathToCacheKey other = pathToCacheKey path ∧
        fileDiffs.lookup other = some diff ∧
          d.lookup (.commit sha, .diff (pathToCacheKey path)) = some (.fileDiff diff)

/-- Every commit that counts as cached has a complete entry. -/
def CommitsComplete (pathToCacheKey : Text → Text) (base64 : Base64) (d : Disk) : Prop :=
  ∀ sha, hasCommitCache d sha = true → CompleteEntry pathToCacheKey base64 d sha

/-- An entry depends only on the index and the diffs of the commit. -/
theorem CompleteEntry.congr {d' : Disk}
    (hindex : d'.lookup (.commit sha, .index) = d.lookup (.commit sha, .index))
    (hdiff : ∀ key, d'.lookup (.commit sha, .diff key) = d.lookup (.commit sha, .diff key))
    (h : CompleteEntry pathToCacheKey base64 d sha) :
    CompleteEntry pathToCacheKey base64 d' sha := by
  obtain ⟨index, entries, fileDiffs, hidx, hparse, hfiles⟩ := h
  refine ⟨index, entries, fileDiffs, by rw [hindex, hidx], hparse, ?_⟩
  intro path hpath
  rw [hdiff]
  exact hfiles path hpath

/-- Completeness survives a change that leaves the files of the cached commits alone. -/
theorem CommitsComplete.of_lookup {d' : Disk} (h : CommitsComplete pathToCacheKey base64 d)
    (hindex : ∀ sha, hasCommitCache d' sha = true →
      d'.lookup (.commit sha, .index) = d.lookup (.commit sha, .index))
    (hdiff : ∀ sha, hasCommitCache d' sha = true →
      ∀ key, d'.lookup (.commit sha, .diff key) = d.lookup (.commit sha, .diff key)) :
    CommitsComplete pathToCacheKey base64 d' := by
  intro sha hsha
  refine (h sha ?_).congr (hindex sha hsha) (hdiff sha hsha)
  rw [hasCommitCache, ← hindex sha hsha]
  exact hsha

/-- A save of a commit, in which no diff fails once the index is in place, keeps every entry
complete. -/
theorem saveCommitCache_complete (h : CommitsComplete pathToCacheKey base64 d)
    {index : CachedCommitIndex} {entries : List CollectScriptFile} {fileDiffs : Table Text FileDiff}
    (hparse : parseScriptFiles base64 entries = some (index.files, fileDiffs)) {env : SaveEnv}
    (henv : env.Intact (entries.filterMap CollectScriptFile.canonicalPath)) :
    CommitsComplete pathToCacheKey base64
      (saveCommitCache pathToCacheKey index fileDiffs env d).1 := by
  by_cases hreach : env.ReachesDiffs
  · intro sha hsha
    by_cases hdir : sha = index.sha
    · -- the saved commit itself: its index, then one file for each diff
      rw [hdir, saveCommitCache, writeCacheDir_of_reachesDiffs hreach]
      have hok : ∀ e ∈ env.order fileDiffs,
          env.fails (.writeDiff e.1) = none ∧ env.fails (.renameDiff e.1) = none := by
        intro e he
        refine henv hreach e.1 (((parseScriptFiles_spec hparse).2 e.1).mp ?_)
        have hmem : e ∈ fileDiffs.entries := (env.order_perm fileDiffs).mem_iff.mp he
        exact AList.mem_keys.mpr (List.mem_keys_of_mem hmem)
      refine ⟨index, entries, fileDiffs, ?_, hparse, ?_⟩
      · rw [lookup_writeDiffs_of_ne (by simp), AList.lookup_insert]
      · intro path hpath
        rcases lookup_writeDiffs hok (pathToCacheKey path)
            ((d.erase (.commit index.sha, .indexTmp)).insert (.commit index.sha, .index)
              (.commitIndex index)) with ⟨e, he, hkey, hlook⟩ | ⟨hne, -⟩
        · refine ⟨e.1, e.2, hkey, ?_, hlook⟩
          exact AList.mem_lookup_iff.mpr ((env.order_perm fileDiffs).mem_iff.mp he)
        · -- the map is iterated as a whole, so some diff was written under this key
          obtain ⟨diff, hdiff⟩ := Option.isSome_iff_exists.mp (AList.lookup_isSome.mpr hpath)
          have hmem : ⟨path, diff⟩ ∈ env.order fileDiffs :=
            (env.order_perm fileDiffs).mem_iff.mpr (AList.mem_lookup_iff.mp hdiff)
          exact absurd rfl (hne _ hmem)
    · -- every other commit has a directory of its own
      have hframe : ∀ file, (saveCommitCache pathToCacheKey index fileDiffs env d).1.lookup
          (.commit sha, file) = d.lookup (.commit sha, file) := fun file =>
        lookup_writeCacheDir_of_ne (by simpa using hdir) _ _ _ _
      refine (h sha ?_).congr (hframe _) fun key => hframe _
      rw [hasCommitCache, ← hframe]
      exact hsha
  · -- the save stopped before its index was in place
    exact h.of_lookup
      (fun sha _ => lookup_writeCacheDir_of_not_reachesDiffs hreach (by simp) _ _ _)
      (fun sha _ key => lookup_writeCacheDir_of_not_reachesDiffs hreach (by simp) _ _ _)

/-- The saves of all commits of a collection. The save environments are those from number `i` on. -/
theorem saveCommits_complete {env : CollectEnv} {cachedAt : ℕ} {commits : List CollectScriptCommit}
    {results : List (CachedCommitIndex × Table Text FileDiff)}
    (hresults : List.Forall₂ (fun commit r => parseScriptCommit base64 cachedAt commit = some r)
      commits results) {i : ℕ}
    (henv : ∀ (k : ℕ) (commit : CollectScriptCommit), commits[k]? = some commit →
      (env.commitSave (i + k)).Intact (commit.files.filterMap CollectScriptFile.canonicalPath))
    (h : CommitsComplete pathToCacheKey base64 d) :
    CommitsComplete pathToCacheKey base64 (saveCommits pathToCacheKey env i results d) := by
  induction hresults generalizing i d with
  | nil => exact h
  | @cons commit r commits results hr _ ih =>
    obtain ⟨index, fileDiffs⟩ := r
    simp only [parseScriptCommit, Option.bind_eq_bind, Option.bind_eq_some_iff, Option.some.injEq,
      Prod.mk.injEq] at hr
    obtain ⟨⟨files, diffs⟩, hparse, hindex, rfl⟩ := hr
    rw [saveCommits]
    refine ih ?_ (saveCommitCache_complete h ?_ (henv 0 commit rfl))
    · intro k commit' hk
      have hnext := henv (k + 1) commit' hk
      rwa [Nat.add_comm k 1, ← Nat.add_assoc] at hnext
    · rw [← hindex]
      exact hparse

theorem lookup_removeDirs (gone : CacheDir → Bool) (survives : CacheDir × CacheFile → Bool)
    (d : Disk) (p : CacheDir × CacheFile) :
    (removeDirs gone survives d).lookup p =
      if (!gone p.1 || survives p) = true then d.lookup p else none :=
  Table.lookup_retain_key (fun q : CacheDir × CacheFile => !gone q.1 || survives q) d p

/-- Removing directories keeps every entry complete, if no failed removal keeps an index alone. -/
theorem removeDirs_complete {gone : CacheDir → Bool} {survives : CacheDir × CacheFile → Bool}
    (hremove : ∀ sha, gone (.commit sha) = true → RemovesIndexFirst survives sha)
    (h : CommitsComplete pathToCacheKey base64 d) :
    CommitsComplete pathToCacheKey base64 (removeDirs gone survives d) := by
  have hkept : ∀ sha, hasCommitCache (removeDirs gone survives d) sha = true →
      (!gone (.commit sha) || survives (.commit sha, .index)) = true := by
    intro sha hsha
    rw [hasCommitCache, lookup_removeDirs] at hsha
    by_contra hgone
    rw [if_neg hgone] at hsha
    exact absurd hsha (by simp)
  refine h.of_lookup ?_ ?_
  · intro sha hsha
    rw [lookup_removeDirs, if_pos (hkept sha hsha)]
  · intro sha hsha key
    rw [lookup_removeDirs, if_pos]
    rcases Bool.or_eq_true_iff.mp (hkept sha hsha) with hstay | hsurvive
    · exact Bool.or_eq_true_iff.mpr (.inl hstay)
    · by_cases hgone : gone (.commit sha) = true
      · exact Bool.or_eq_true_iff.mpr (.inr (hremove sha hgone hsurvive key))
      · simp [hgone]

/-- One collection keeps every entry complete. -/
theorem collectAndCache_complete (h : CommitsComplete pathToCacheKey base64 d) {headSha : Text}
    {commitShas : List Text} {env : CollectEnv} (henv : env.Intact d headSha commitShas) :
    CommitsComplete pathToCacheKey base64
      (collectAndCache pathToCacheKey base64 branchId headSha commitShas env d).1 := by
  unfold collectAndCache
  split
  · exact h
  · rename_i collected hcollected
    obtain ⟨out, hout, hresults⟩ := collectBranchDiff_eq_ok hcollected
    have hbranch : CommitsComplete pathToCacheKey base64
        (saveCache pathToCacheKey collected.index collected.fileDiffs env.branchSave d).1 :=
      h.of_lookup (fun sha _ => lookup_writeCacheDir_of_ne (by simp) _ _ _ _)
        (fun sha _ key => lookup_writeCacheDir_of_ne (by simp) _ _ _ _)
    split
    · rename_i heq
      rw [heq] at hbranch
      exact hbranch
    · rename_i heq
      rw [heq] at hbranch
      refine removeDirs_complete (fun sha hsha => henv.2 sha (by simpa using hsha)) ?_
      refine saveCommits_complete hresults (fun k commit hk => ?_)
        (removeDirs_complete (fun sha hsha => absurd hsha (by simp)) hbranch)
      rw [Nat.zero_add]
      exact henv.1 out hout k commit hk

/-- The collection of a request that misses the cache. -/
theorem ensureCachePopulated_complete (h : CommitsComplete pathToCacheKey base64 d)
    {ctx : BranchDiffContext} {scope : DiffScope} {commitSha : Option Text} {env : CollectEnv}
    (henv : ∀ headSha commitShas, ctx.collectArgs scope commitSha = .ok (headSha, commitShas) →
      env.Intact d headSha commitShas) :
    CommitsComplete pathToCacheKey base64
      (ensureCachePopulated pathToCacheKey base64 branchId ctx scope commitSha env d).1 := by
  unfold ensureCachePopulated
  split
  · exact h
  · rename_i headSha commitShas hargs
    exact collectAndCache_complete h (henv headSha commitShas hargs)

/-! ## Events -/

/-- A request for the file list touches the disk only by collecting, after the cache has missed. -/
theorem getDiffFiles_disk (ctx : BranchDiffContext) (commitSha : Option Text) (scope : DiffScope)
    (env : CollectEnv) (d : Disk) :
    (getDiffFiles pathToCacheKey base64 branchId ctx commitSha scope env d).1 = d ∨
      cachedDiffFiles ctx commitSha scope d = none ∧
        (getDiffFiles pathToCacheKey base64 branchId ctx commitSha scope env d).1 =
          (ensureCachePopulated pathToCacheKey base64 branchId ctx scope commitSha env d).1 := by
  unfold getDiffFiles
  split
  · exact .inl rfl
  · split
    · exact .inl rfl
    · rename_i hmiss
      refine .inr ⟨hmiss, ?_⟩
      split
      · rename_i heq
        rw [heq]
      · rename_i heq
        rw [heq]
        split
        · cases commitSha <;> rfl
        · rfl

/-- A request for one diff touches the disk only by collecting, after the cache has missed. -/
theorem getFileDiff_disk (ctx : BranchDiffContext) (commitSha : Text) (scope : DiffScope)
    (path : Text) (env : CollectEnv) (d : Disk) :
    (getFileDiff pathToCacheKey base64 branchId ctx commitSha scope path env d).1 = d ∨
      cachedFileDiff pathToCacheKey commitSha scope path d = none ∧
        (getFileDiff pathToCacheKey base64 branchId ctx commitSha scope path env d).1 =
          (ensureCachePopulated pathToCacheKey base64 branchId ctx scope (some commitSha) env d).1 := by
  unfold getFileDiff
  split
  · exact .inl rfl
  · split
    · exact .inl rfl
    · rename_i hmiss
      refine .inr ⟨hmiss, ?_⟩
      split
      · rename_i heq
        rw [heq]
      · rename_i heq
        rw [heq]
        split <;> rfl

/-- One event keeps every entry complete. -/
theorem cacheStep_complete {d' : Disk} {event : CacheEvent}
    (h : CommitsComplete pathToCacheKey base64 d) (hevent : event.Intact pathToCacheKey d)
    (hstep : cacheStep pathToCacheKey base64 branchId d event = some d') :
    CommitsComplete pathToCacheKey base64 d' := by
  cases event with
  | collect headSha commitShas env =>
    rw [cacheStep, Option.some.injEq] at hstep
    rw [← hstep]
    exact collectAndCache_complete h hevent
  | getDiffFiles ctx commitSha scope env =>
    rw [cacheStep, Option.some.injEq] at hstep
    rcases getDiffFiles_disk ctx commitSha scope env d with hsame | ⟨hmiss, hdisk⟩
    · rw [← hstep, hsame]
      exact h
    · rw [← hstep, hdisk]
      exact ensureCachePopulated_complete h (hevent hmiss)
  | getFileDiff ctx commitSha scope path env =>
    rw [cacheStep, Option.some.injEq] at hstep
    rcases getFileDiff_disk ctx commitSha scope path env d with hsame | ⟨hmiss, hdisk⟩
    · rw [← hstep, hsame]
      exact h
    · rw [← hstep, hdisk]
      exact ensureCachePopulated_complete h (hevent hmiss)
  | deleteBranchCache survives =>
    rw [cacheStep, Option.some.injEq] at hstep
    rw [← hstep]
    exact removeDirs_complete (fun sha _ => hevent sha) h

/-- The commits found among the collected ones are those the script sent, with a diff for each path
it sent. -/
theorem find_eq_none_of_collected {cachedAt : ℕ} {commits : List CollectScriptCommit}
    {results : List (CachedCommitIndex × Table Text FileDiff)}
    (hresults : List.Forall₂ (fun commit r => parseScriptCommit base64 cachedAt commit = some r)
      commits results) {path : Text}
    (h : ((results.find? fun r => r.1.sha = sha).bind fun r => r.2.lookup path) = none)
    {commit : CollectScriptCommit} (hcommit : commits.find? (fun c => c.sha = sha) = some commit) :
    path ∉ commit.files.filterMap CollectScriptFile.canonicalPath := by
  induction hresults with
  | nil => exact absurd hcommit (by simp)
  | @cons first r commits results hr _ ih =>
    obtain ⟨index, fileDiffs⟩ := r
    simp only [parseScriptCommit, Option.bind_eq_bind, Option.bind_eq_some_iff, Option.some.injEq,
      Prod.mk.injEq] at hr
    obtain ⟨⟨files, diffs⟩, hparse, rfl, rfl⟩ := hr
    by_cases hsha : first.sha = sha
    · rw [List.find?_cons_of_pos (by simpa using hsha), Option.some.injEq] at hcommit
      rw [List.find?_cons_of_pos (by simpa using hsha), Option.bind_some,
        AList.lookup_eq_none] at h
      rw [← hcommit]
      exact fun hpath => h (((parseScriptFiles_spec hparse).2 path).mpr hpath)
    · rw [List.find?_cons_of_neg (by simpa using hsha)] at hcommit
      rw [List.find?_cons_of_neg (by simpa using hsha)] at h
      exact ih h hcommit

/-- A request for a diff of a commit is answered with "not found" only when the cached index of the
commit does not list the path, or the remote was asked for the commit and sent no such file. -/
def NotFoundJustified (pathToCacheKey : Text → Text) (base64 : Base64) (branchId : Text) (d : Disk) :
    Prop :=
  ∀ (ctx : BranchDiffContext) (sha path : Text) (env : CollectEnv),
    (getFileDiff pathToCacheKey base64 branchId ctx sha .commit path env d).2 =
        .error (.fileNotFound path) →
      (∃ index, loadCommitIndex d sha = some index ∧ ∀ f ∈ index.files, f.path ≠ some path) ∨
        ∃ headSha commitShas out,
          ctx.collectArgs .commit (some sha) = .ok (headSha, commitShas) ∧
            sha ∈ uncachedShas d commitShas ∧
            env.script headSha (uncachedShas d commitShas) = .output out ∧
            ∀ commit, out.commits.find? (fun c => c.sha = sha) = some commit →
              path ∉ commit.files.filterMap CollectScriptFile.canonicalPath

/-- The commit of a request is among the commits to collect. -/
theorem mem_of_collectArgs {headSha : Text} {commitShas : List Text}
    (h : ctx.collectArgs .commit (some sha) = .ok (headSha, commitShas)) : sha ∈ commitShas := by
  unfold BranchDiffContext.collectArgs at h
  split at h
  · cases h
  · split at h
    · cases h
    · simp only [Except.ok.injEq, Prod.mk.injEq] at h
      rw [← h.2, BranchDiffContext.allCommitShas]
      split
      · assumption
      · exact List.mem_append.mpr (.inr (List.mem_singleton.mpr rfl))

/-- What a successful collection was asked for, and what it was sent. -/
theorem ensureCachePopulated_eq_ok {env : CollectEnv} {collected : CollectedDiffs}
    (h : (ensureCachePopulated pathToCacheKey base64 branchId ctx scope commitSha env d).2 =
      .ok collected) :
    ∃ headSha commitShas out, ctx.collectArgs scope commitSha = .ok (headSha, commitShas) ∧
      env.script headSha (uncachedShas d commitShas) = .output out ∧
        List.Forall₂ (fun commit r => parseScriptCommit base64 env.cachedAt commit = some r)
          out.commits collected.commitResults := by
  unfold ensureCachePopulated at h
  split at h
  · cases h
  · rename_i headSha commitShas hargs
    unfold collectAndCache at h
    split at h
    · cases h
    · rename_i collected' hcollected
      have heq : collected' = collected := by
        split at h
        · cases h
        · exact Except.ok.inj h
      obtain ⟨out, hout, hresults⟩ := collectBranchDiff_eq_ok hcollected
      exact ⟨headSha, commitShas, out, hargs, hout, heq ▸ hresults⟩

theorem ne_fileNotFound_of_collectArgs {e : DiffError} (h : ctx.collectArgs scope commitSha = .error e)
    (path : Text) : e ≠ .fileNotFound path := by
  unfold BranchDiffContext.collectArgs BranchDiffContext.headSha at h
  rintro rfl
  split at h
  · cases h
  · split at h
    · rename_i e he
      split at he
      · cases he
      · split at he
        · cases he
        · cases he
          cases h
    · cases h

/-- A failed collection does not report a missing file. -/
theorem ne_fileNotFound_of_ensureCachePopulated {env : CollectEnv} {e : DiffError}
    (h : (ensureCachePopulated pathToCacheKey base64 branchId ctx scope commitSha env d).2 = .error e)
    (path : Text) : e ≠ .fileNotFound path := by
  unfold ensureCachePopulated at h
  split at h
  · rename_i e' hargs
    exact Except.error.inj h ▸ ne_fileNotFound_of_collectArgs hargs path
  · unfold collectAndCache at h
    split at h
    · rename_i e' hcollect
      exact Except.error.inj h ▸ ne_fileNotFound_of_collectBranchDiff hcollect path
    · split at h
      · rw [← Except.error.inj h]
        simp
      · cases h

/-- The files a complete entry lists can be loaded. -/
theorem CompleteEntry.load (h : CompleteEntry pathToCacheKey base64 d sha) :
    ∃ index entries fileDiffs, loadCommitIndex d sha = some index ∧
      parseScriptFiles base64 entries = some (index.files, fileDiffs) ∧
        ∀ f ∈ index.files, ∃ path diff, f.path = some path ∧
          loadCommitFileDiff pathToCacheKey d sha path = some diff ∧
            ∃ other, pathToCacheKey other = pathToCacheKey path ∧
              fileDiffs.lookup other = some diff := by
  obtain ⟨index, entries, fileDiffs, hindex, hparse, hfiles⟩ := h
  refine ⟨index, entries, fileDiffs, by rw [loadCommitIndex, hindex], hparse, ?_⟩
  intro f hf
  obtain ⟨path, hpath, hfpath⟩ := (parseScriptFiles_spec hparse).1 f hf
  obtain ⟨other, diff, hkey, hlook, hdisk⟩ := hfiles path hpath
  exact ⟨path, diff, hfpath, by rw [loadCommitFileDiff, loadFileDiff, hdisk], other, hkey, hlook⟩

/-- With complete entries, "not found" is the truth about the index or about the remote. -/
theorem CommitsComplete.notFoundJustified (h : CommitsComplete pathToCacheKey base64 d) :
    NotFoundJustified pathToCacheKey base64 branchId d := by
  intro ctx sha path env hanswer
  unfold getFileDiff at hanswer
  rw [if_neg (by simp)] at hanswer
  split at hanswer
  · cases hanswer
  · rename_i hmiss
    split at hanswer
    · rename_i d' e he
      have hfailed := ne_fileNotFound_of_ensureCachePopulated (congrArg Prod.snd he) path
      exact absurd (Except.error.inj hanswer) hfailed
    · rename_i d' collected hcollected
      obtain ⟨headSha, commitShas, out, hargs, hout, hresults⟩ :=
        ensureCachePopulated_eq_ok (congrArg Prod.snd hcollected)
      by_cases hcached : hasCommitCache d sha = true
      · -- the commit was skipped, but its index lists only paths that load
        obtain ⟨index, _, _, hindex, _, hfiles⟩ := (h sha hcached).load
        refine .inl ⟨index, hindex, ?_⟩
        intro f hf hpath
        obtain ⟨path', diff, hpath', hload, -⟩ := hfiles f hf
        rw [hpath, Option.some.injEq] at hpath'
        rw [← hpath'] at hload
        exact absurd (hload.symm.trans hmiss) (by simp)
      · -- the remote was asked for the commit and its answer does not have the path
        refine .inr ⟨headSha, commitShas, out, hargs, ?_, hout, ?_⟩
        · exact List.mem_filter.mpr ⟨mem_of_collectArgs hargs, by simpa using hcached⟩
        · intro commit hcommit
          split at hanswer
          · cases hanswer
          · rename_i hfind
            rw [CollectedDiffs.find, if_pos rfl] at hfind
            exact find_eq_none_of_collected hresults hfind hcommit

/-! ## Every run -/

/-- In every run from an empty cache whose steps are intact, each commit that counts as cached has an
index, every file of the index loads, with a diff that was collected together with the index under
the same key, and no file is ever reported as not found without reason. -/
theorem cached_commits_complete {events : List CacheEvent}
    (hintact : Along (cacheStep pathToCacheKey base64 branchId)
      (fun d event => event.Intact pathToCacheKey d) ∅ events)
    (hrun : run (cacheStep pathToCacheKey base64 branchId) ∅ events = some d) :
    (∀ sha, hasCommitCache d sha = true →
      ∃ index entries fileDiffs, loadCommitIndex d sha = some index ∧
        parseScriptFiles base64 entries = some (index.files, fileDiffs) ∧
          ∀ f ∈ index.files, ∃ path diff, f.path = some path ∧
            loadCommitFileDiff pathToCacheKey d sha path = some diff ∧
              ∃ other, pathToCacheKey other = pathToCacheKey path ∧
                fileDiffs.lookup other = some diff) ∧
      NotFoundJustified pathToCacheKey base64 branchId d := by
  have hempty : CommitsComplete pathToCacheKey base64 ∅ :=
    fun sha hsha => absurd hsha (by simp [hasCommitCache])
  have hcomplete : CommitsComplete pathToCacheKey base64 d :=
    run_invariant_along (fun d event d' hd hevent hstep => cacheStep_complete hd hevent hstep)
      hempty hintact hrun
  exact ⟨fun sha hsha => (hcomplete sha hsha).load, hcomplete.notFoundJustified⟩

end Completeness

/-! ## One failed write -/

/-- The key of the path `a`; other paths stand for themselves. -/
def sampleKey (path : Text) : Text :=
  if path = ['a'] then
    "ca978112ca1bbdcafac231b39a23dc4da786eff8147c4e72b9807785afee48bb".toList
  else path

/-- Base64 as far as the samples need it: no file of theirs has content. -/
def sampleBase64 : Base64 := ⟨fun text => if text = [] then some [] else none, fun _ => []⟩

/-- An added file without content. -/
def sampleEntry : CollectScriptFile where
  status := ['A']
  beforePath := []
  afterPath := ['a']
  beforeContentB64 := none
  afterContentB64 := none
  patch := "diff --git a/a b/a\nnew file mode 100644\nindex 0000000..e69de29\n".toList

/-- A save in which the given operations fail. -/
def sampleSave (fails : SaveOp → Option Text) : SaveEnv where
  fails
  order m := m.entries
  order_perm m := List.Perm.refl m.entries

/-- A remote with one commit, `c`, that is sent when asked for. The saves of commits may fail. -/
def sampleEnv (fails : SaveOp → Option Text) : CollectEnv where
  script head shas := .output
    ⟨head, ['b'], [sampleEntry], (shas.filter (· = ['c'])).map fun sha => ⟨sha, ['p'], [sampleEntry]⟩⟩
  cachedAt := 0
  branchSave := sampleSave fun _ => none
  commitSave _ := sampleSave fails
  survives _ := false

/-- The disk is full when the diffs are written. -/
def diskFull : SaveOp → Option Text
  | .writeDiff _ => some "No space left on device (os error 28)".toList
  | _ => none

/-- A remote branch whose only commit is `c`. -/
def sampleContext : BranchDiffContext := ⟨some ['w'], some [some ['c']], .ok ['c']⟩

/-- The index cannot be written either. -/
def indexFull : SaveOp → Option Text
  | .writeIndex => some "No space left on device (os error 28)".toList
  | op => diskFull op

/-- A collection of the sample is intact when its saves stop before the index or do not fail. -/
theorem sampleEnv_intact {fails : SaveOp → Option Text}
    (hfails : fails .writeIndex ≠ none ∨ ∀ op, fails op = none) (d : Disk) (headSha : Text)
    (commitShas : List Text) : (sampleEnv fails).Intact d headSha commitShas := by
  refine ⟨?_, fun sha _ hsurvives => absurd hsurvives (by simp [sampleEnv])⟩
  intro out _ i commit _ hreach path _
  rcases hfails with hindex | hnone
  · exact absurd hreach.2.1 hindex
  · exact ⟨hnone _, hnone _⟩

/-- A collection that cannot write the index, and one that can. -/
def sampleEvents : List CacheEvent :=
  [.collect ['c'] [['c']] (sampleEnv indexFull), .collect ['c'] [['c']] (sampleEnv fun _ => none)]

theorem sampleEvents_intact :
    Along (cacheStep sampleKey sampleBase64 ['x']) (fun d event => event.Intact sampleKey d) ∅
      sampleEvents :=
  ⟨sampleEnv_intact (.inl (by decide)) _ _ _, fun _ _ =>
    ⟨sampleEnv_intact (.inr fun _ => rfl) _ _ _, fun _ _ => trivial⟩⟩

/-- What the second collection leaves. -/
theorem cached_commits_complete_after_failed_save :
    ∃ d, run (cacheStep sampleKey sampleBase64 ['x']) ∅ sampleEvents = some d ∧
      hasCommitCache d ['c'] = true ∧
        (∃ index, loadCommitIndex d ['c'] = some index ∧ ∀ f ∈ index.files, ∃ path diff,
          f.path = some path ∧ loadCommitFileDiff sampleKey d ['c'] path = some diff) ∧
          NotFoundJustified sampleKey sampleBase64 ['x'] d := by
  refine ⟨_, rfl, by decide, ?_⟩
  have hcomplete := cached_commits_complete sampleEvents_intact rfl
  obtain ⟨index, _, _, hindex, _, hfiles⟩ := hcomplete.1 ['c'] (by decide)
  refine ⟨⟨index, hindex, fun f hf => ?_⟩, hcomplete.2⟩
  obtain ⟨path, diff, hpath, hload, -⟩ := hfiles f hf
  exact ⟨path, diff, hpath, hload⟩

/-- After one collection whose diff could not be written, the commit counts as cached and lists the
file, but the file does not load and a later request, with nothing failing, does not find it. -/
theorem failed_write_hides_file :
    ∃ d, run (cacheStep sampleKey sampleBase64 ['x']) ∅
        [.collect ['c'] [['c']] (sampleEnv diskFull)] = some d ∧
      hasCommitCache d ['c'] = true ∧
        ((loadCommitIndex d ['c']).map fun index => index.files.map FileDiffSummary.path) =
          some [some ['a']] ∧
          loadCommitFileDiff sampleKey d ['c'] ['a'] = none ∧
            (getFileDiff sampleKey sampleBase64 ['x'] sampleContext ['c'] .commit ['a']
              (sampleEnv fun _ => none) d).2 = .error (.fileNotFound ['a']) := by
  refine ⟨_, rfl, ?_⟩
  decide

end Builderbot.Staged
