import Builderbot.Lib.Run
import Builderbot.Staged.DiffCollect

/-!
# The diff cache on disk

`apps/staged/src-tauri/src/diff_cache.rs` keeps the diffs of a branch and of its commits on disk, one
directory for each, with an `index.json` and one file for each diff. `collect_and_cache` asks the
remote only for commits whose `index.json` does not exist, and the two diff commands of
`diff_commands.rs` read the cache before they collect.

The model is the cache directory of one branch. Every single write and rename of `write_cache_dir`
may fail, each with its own error; a removed directory may leave files behind. The hash of a path and
the base64 engine come from third-party crates and are parameters.
-/

namespace Builderbot.Staged

open Builderbot.Lib.Text Builderbot.Git

/-- A directory in the cache of a branch: `branch/<head_sha>` or `commits/<commit_sha>`. -/
inductive CacheDir where
  | branch (headSha : Text)
  | commit (commitSha : Text)
deriving DecidableEq

/-- A file in such a directory, by its role: `index.json`, `diffs/<key>.json`, and the temporary
files they are written to first. -/
inductive CacheFile where
  | index
  | indexTmp
  | diff (key : Text)
  | diffTmp (key : Text)
deriving DecidableEq

/-- What a file holds. The values stand for their JSON text; `truncated` is what a failed write
leaves. -/
inductive Content where
  | branchIndex (index : CachedBranchIndex)
  | commitIndex (index : CachedCommitIndex)
  | fileDiff (diff : FileDiff)
  | truncated
deriving DecidableEq

/-- The files in the cache directory of one branch. -/
abbrev Disk := Table (CacheDir × CacheFile) Content

/-- The file operations of one call of `write_cache_dir`, named by the path of the diff. -/
inductive SaveOp where
  | createDir
  | writeIndex
  | renameIndex
  | writeDiff (path : Text)
  | renameDiff (path : Text)

/-- The surroundings of one call of `write_cache_dir`: the operations that fail, with their error,
and the order in which the hash map of diffs is iterated. -/
structure SaveEnv where
  fails : SaveOp → Option Text
  order : Table Text FileDiff → List (Σ _ : Text, FileDiff)
  order_perm : ∀ m, (order m).Perm m.entries

/-- The surroundings of one call of `collect_and_cache`. `script` is the remote call, by head SHA and
requested commits; the saves of the commits are numbered; `survives` says which files of a removed
directory stay because the removal failed. -/
structure CollectEnv where
  script : Text → List Text → ScriptResult
  cachedAt : ℕ
  branchSave : SaveEnv
  commitSave : ℕ → SaveEnv
  survives : CacheDir × CacheFile → Bool

/-! ## Writing -/

/-- Write a temporary file and rename it into place. -/
def writeAndRename (dir : CacheDir) (tmp file : CacheFile) (content : Content)
    (writeError renameError : Option Text) (d : Disk) : Disk × Option Text :=
  match writeError, renameError with
  | some e, _ => (d.insert (dir, tmp) .truncated, some e)
  | none, some e => (d.insert (dir, tmp) content, some e)
  | none, none => ((d.erase (dir, tmp)).insert (dir, file) content, none)

section Paths

variable (pathToCacheKey : Text → Text)

/-- The loop over the diffs in `write_cache_dir`; it stops at the first error. -/
def writeDiffs (dir : CacheDir) (env : SaveEnv) :
    List (Σ _ : Text, FileDiff) → Disk → Disk × Option Text
  | [], d => (d, none)
  | e :: rest, d =>
    let key := pathToCacheKey e.1
    match writeAndRename dir (.diffTmp key) (.diff key) (.fileDiff e.2)
        (env.fails (.writeDiff e.1)) (env.fails (.renameDiff e.1)) d with
    | (d, some err) => (d, some err)
    | (d, none) => writeDiffs dir env rest d

/-- `write_cache_dir`. -/
def writeCacheDir (dir : CacheDir) (index : Content) (fileDiffs : Table Text FileDiff)
    (env : SaveEnv) (d : Disk) : Disk × Option Text :=
  match env.fails .createDir with
  | some err => (d, some err)
  | none =>
    match writeAndRename dir .indexTmp .index index (env.fails .writeIndex)
        (env.fails .renameIndex) d with
    | (d, some err) => (d, some err)
    | (d, none) => writeDiffs pathToCacheKey dir env (env.order fileDiffs) d

/-- `save_cache`. -/
def saveCache (index : CachedBranchIndex) (fileDiffs : Table Text FileDiff) (env : SaveEnv)
    (d : Disk) : Disk × Option Text :=
  writeCacheDir pathToCacheKey (.branch index.headSha) (.branchIndex index) fileDiffs env d

/-- `save_commit_cache`. -/
def saveCommitCache (index : CachedCommitIndex) (fileDiffs : Table Text FileDiff) (env : SaveEnv)
    (d : Disk) : Disk × Option Text :=
  writeCacheDir pathToCacheKey (.commit index.sha) (.commitIndex index) fileDiffs env d

/-! ## Reading and removing -/

/-- `load_cache_index`. -/
def loadCacheIndex (d : Disk) (headSha : Text) : Option CachedBranchIndex :=
  match d.lookup (.branch headSha, .index) with
  | some (.branchIndex index) => some index
  | _ => none

/-- The shared body of `load_cached_file_diff` and `load_commit_file_diff`. -/
def loadFileDiff (d : Disk) (dir : CacheDir) (filePath : Text) : Option FileDiff :=
  match d.lookup (dir, .diff (pathToCacheKey filePath)) with
  | some (.fileDiff diff) => some diff
  | _ => none

/-- `load_cached_file_diff`. -/
def loadCachedFileDiff (d : Disk) (headSha filePath : Text) : Option FileDiff :=
  loadFileDiff pathToCacheKey d (.branch headSha) filePath

/-- `load_commit_file_diff`. -/
def loadCommitFileDiff (d : Disk) (commitSha filePath : Text) : Option FileDiff :=
  loadFileDiff pathToCacheKey d (.commit commitSha) filePath

/-- `has_commit_cache`. -/
def hasCommitCache (d : Disk) (commitSha : Text) : Bool :=
  (d.lookup (.commit commitSha, .index)).isSome

/-- `load_commit_index`. -/
def loadCommitIndex (d : Disk) (commitSha : Text) : Option CachedCommitIndex :=
  match d.lookup (.commit commitSha, .index) with
  | some (.commitIndex index) => some index
  | _ => none

/-- Remove the directories in `gone`, except for the files that survive. -/
def removeDirs (gone : CacheDir → Bool) (survives : CacheDir × CacheFile → Bool) (d : Disk) : Disk :=
  d.retain fun file _ => !gone file.1 || survives file

/-- `cleanup_old_caches`. -/
def cleanupOldCaches (keepSha : Text) : (CacheDir × CacheFile → Bool) → Disk → Disk :=
  removeDirs fun dir => match dir with
    | .branch sha => sha ≠ keepSha
    | .commit _ => false

/-- `cleanup_old_commit_caches`. -/
def cleanupOldCommitCaches (keepShas : List Text) : (CacheDir × CacheFile → Bool) → Disk → Disk :=
  removeDirs fun dir => match dir with
    | .branch _ => false
    | .commit sha => sha ∉ keepShas

/-- `delete_branch_cache`. -/
def deleteBranchCache : (CacheDir × CacheFile → Bool) → Disk → Disk :=
  removeDirs fun _ => true

/-! ## Collecting -/

/-- The loop over the commits in `collect_and_cache`: a save that fails is only logged. -/
def saveCommits (env : CollectEnv) :
    ℕ → List (CachedCommitIndex × Table Text FileDiff) → Disk → Disk
  | _, [], d => d
  | i, (index, fileDiffs) :: rest, d =>
    saveCommits env (i + 1) rest
      (saveCommitCache pathToCacheKey index fileDiffs (env.commitSave i) d).1

/-- The commits that `collect_and_cache` asks the remote for. -/
def uncachedShas (d : Disk) (commitShas : List Text) : List Text :=
  commitShas.filter fun sha => !hasCommitCache d sha

variable (base64 : Base64) (branchId : Text)

/-- `collect_and_cache`. -/
def collectAndCache (headSha : Text) (commitShas : List Text) (env : CollectEnv) (d : Disk) :
    Disk × Except DiffError CollectedDiffs :=
  match collectBranchDiff base64 branchId env.cachedAt
      (env.script headSha (uncachedShas d commitShas)) with
  | .error e => (d, .error e)
  | .ok collected =>
    match saveCache pathToCacheKey collected.index collected.fileDiffs env.branchSave d with
    -- a failed save of the branch ends the call before any commit is saved
    | (d, some err) => (d, .error (.io err))
    | (d, none) =>
      let d := cleanupOldCaches collected.index.headSha env.survives d
      let d := saveCommits pathToCacheKey env 0 collected.commitResults d
      (cleanupOldCommitCaches commitShas env.survives d, .ok collected)

/-! ## The diff commands -/

/-- The scope of a diff request. The commands compare a string with these three. -/
inductive DiffScope where
  | branch
  | commit
  | worktree
  | other
deriving DecidableEq

/-- What the commands know about a remote branch: its workspace, the commit rows of the store in
order (`none` when the query fails; a row may have no SHA), and what `git rev-parse HEAD` prints in
the workspace. -/
structure BranchDiffContext where
  workspaceName : Option Text
  commits : Option (List (Option Text))
  revParse : Except Text Text

/-- The SHA of the newest commit row that has one. -/
def BranchDiffContext.latestSha (ctx : BranchDiffContext) : Option Text :=
  ctx.commits.bind fun rows => rows.reverse.findSome? id

/-- The head that `ensure_cache_populated` collects: for the branch scope a given SHA, else the newest
commit row, else the head of the workspace. -/
def BranchDiffContext.headSha (ctx : BranchDiffContext) (scope : DiffScope)
    (commitSha : Option Text) : Except DiffError Text :=
  match (commitSha.filter fun s => s ≠ [] ∧ scope = .branch).or ctx.latestSha with
  | some sha => .ok sha
  | none =>
    match ctx.revParse with
    | .ok out => .ok (trim out)
    | .error e => .error (.remoteGit e)

/-- The commits that `ensure_cache_populated` collects: those of the store, and the requested one. -/
def BranchDiffContext.allCommitShas (ctx : BranchDiffContext) (scope : DiffScope)
    (commitSha : Option Text) : List Text :=
  let rows := (ctx.commits.getD []).filterMap id
  match scope, commitSha with
  | .commit, some sha => if sha ∈ rows then rows else rows ++ [sha]
  | _, _ => rows

/-- The head and the commits that `ensure_cache_populated` passes on. -/
def BranchDiffContext.collectArgs (ctx : BranchDiffContext) (scope : DiffScope)
    (commitSha : Option Text) : Except DiffError (Text × List Text) :=
  match ctx.workspaceName with
  | none => .error .missingWorkspace
  | some _ =>
    match ctx.headSha scope commitSha with
    | .error e => .error e
    | .ok headSha => .ok (headSha, ctx.allCommitShas scope commitSha)

/-- `ensure_cache_populated`. -/
def ensureCachePopulated (ctx : BranchDiffContext) (scope : DiffScope) (commitSha : Option Text)
    (env : CollectEnv) (d : Disk) : Disk × Except DiffError CollectedDiffs :=
  match ctx.collectArgs scope commitSha with
  | .error e => (d, .error e)
  | .ok (headSha, commitShas) =>
    collectAndCache pathToCacheKey base64 branchId headSha commitShas env d

/-- The cache lookup of `get_diff_files_impl`. -/
def cachedDiffFiles (ctx : BranchDiffContext) (commitSha : Option Text) (scope : DiffScope)
    (d : Disk) : Option (Text × List FileDiffSummary) :=
  match scope with
  | .branch => do
      let sha ← ctx.latestSha
      if commitSha.getD sha = sha then
        let cached ← loadCacheIndex d sha
        some (sha, cached.files)
      else none
  | .commit => do
      let sha ← commitSha
      let cached ← loadCommitIndex d sha
      some (sha, cached.files)
  | _ => none

/-- The part of `get_diff_files_impl` for remote branches. -/
def getDiffFiles (ctx : BranchDiffContext) (commitSha : Option Text) (scope : DiffScope)
    (env : CollectEnv) (d : Disk) : Disk × Except DiffError (Text × List FileDiffSummary) :=
  if scope = .worktree then (d, .error .worktreeScope)
  else
    match cachedDiffFiles ctx commitSha scope d with
    | some response => (d, .ok response)
    | none =>
      match ensureCachePopulated pathToCacheKey base64 branchId ctx scope commitSha env d with
      | (d, .error e) => (d, .error e)
      | (d, .ok collected) =>
        if scope = .commit then
          match commitSha with
          | none => (d, .error .commitShaRequired)
          | some sha =>
            let found := collected.commitResults.find? fun r => r.1.sha = sha
            (d, .ok (sha, (found.map fun r => r.1.files).getD []))
        else (d, .ok (collected.index.headSha, collected.index.files))

/-- The cache lookups of `get_file_diff_impl`. -/
def cachedFileDiff (commitSha : Text) (scope : DiffScope) (path : Text) (d : Disk) :
    Option FileDiff :=
  match scope with
  | .branch => loadCachedFileDiff pathToCacheKey d commitSha path
  | .commit => loadCommitFileDiff pathToCacheKey d commitSha path
  | _ => none

/-- The diff of a path among collected diffs. -/
def CollectedDiffs.find (collected : CollectedDiffs) (commitSha : Text) (scope : DiffScope)
    (path : Text) : Option FileDiff :=
  if scope = .commit then
    (collected.commitResults.find? fun r => r.1.sha = commitSha).bind fun r => r.2.lookup path
  else collected.fileDiffs.lookup path

/-- The part of `get_file_diff_impl` for remote branches. -/
def getFileDiff (ctx : BranchDiffContext) (commitSha : Text) (scope : DiffScope) (path : Text)
    (env : CollectEnv) (d : Disk) : Disk × Except DiffError FileDiff :=
  if scope = .worktree then (d, .error .worktreeScope)
  else
    match cachedFileDiff pathToCacheKey commitSha scope path d with
    | some diff => (d, .ok diff)
    | none =>
      match ensureCachePopulated pathToCacheKey base64 branchId ctx scope (some commitSha) env d with
      | (d, .error e) => (d, .error e)
      | (d, .ok collected) =>
        match collected.find commitSha scope path with
        | some diff => (d, .ok diff)
        | none => (d, .error (.fileNotFound path))

end Paths

end Builderbot.Staged
