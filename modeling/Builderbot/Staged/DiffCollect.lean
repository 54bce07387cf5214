import Builderbot.Lib.Table
import Builderbot.Staged.RemoteDiff

/-!
# Collecting the diffs of a remote branch

The client side of `collect_branch_diff` in `apps/staged/src-tauri/src/diff_cache.rs`. One remote
script sends the changed files of a branch and of some of its commits; `parse_script_files` turns a
list of its entries into the summaries of an index and the full diffs, kept under the path the
summary reports.

Base64 comes from a third-party crate and is a parameter. `parseScriptFiles_spec` ties the two
results together: it is what makes an index a promise about the diffs stored beside it.
-/

namespace Builderbot.Staged

open Builderbot.Lib.Text Builderbot.Git

/-- `CollectScriptFile`: a single file entry in the collection script output. -/
structure CollectScriptFile where
  status : Text
  beforePath : Text
  afterPath : Text
  beforeContentB64 : Option Text
  afterContentB64 : Option Text
  patch : Text

/-- `CollectScriptCommit`: a single commit entry in the collection script output. -/
structure CollectScriptCommit where
  sha : Text
  parent : Text
  files : List CollectScriptFile

/-- `CollectScriptOutput`. -/
structure CollectScriptOutput where
  head : Text
  base : Text
  files : List CollectScriptFile
  commits : List CollectScriptCommit

/-- The result of the remote call: the command fails, its output is not the expected JSON, or the
output. -/
inductive ScriptResult where
  | failed (e : Text)
  | unparsable (e : Text)
  | output (out : CollectScriptOutput)

/-- `CachedBranchIndex`. -/
structure CachedBranchIndex where
  branchId : Text
  baseSha : Text
  headSha : Text
  files : List FileDiffSummary
  cachedAt : ℕ
deriving DecidableEq

/-- `CachedCommitIndex`. -/
structure CachedCommitIndex where
  sha : Text
  parentSha : Text
  files : List FileDiffSummary
  cachedAt : ℕ
deriving DecidableEq

/-- `CollectedDiffs`. -/
structure CollectedDiffs where
  index : CachedBranchIndex
  fileDiffs : Table Text FileDiff
  commitResults : List (CachedCommitIndex × Table Text FileDiff)

/-- The failures of the diff path. `overflow` is the panic of a checked addition; the others are the
errors that reach the caller as text. -/
inductive DiffError where
  | overflow
  | missingWorkspace
  | worktreeScope
  | commitShaRequired
  | remoteGit (e : Text)
  | scriptFailed (e : Text)
  | scriptOutput (e : Text)
  | io (e : Text)
  | fileNotFound (path : Text)
deriving DecidableEq

/-- The text of an error. -/
def DiffError.message : DiffError → Option Text
  | .overflow => none
  | .missingWorkspace => some "Missing remote workspace context".toList
  | .worktreeScope => some "Worktree diff is only available for local branches".toList
  | .commitShaRequired => some "commit_sha required for commit scope".toList
  | .remoteGit e => some e
  | .scriptFailed e => some ("remote diff collection script failed: ".toList ++ e)
  | .scriptOutput e => some ("failed to parse remote diff collection output: ".toList ++ e)
  | .io e => some e
  | .fileNotFound path => some ("File not found in diff: ".toList ++ path)

/-! ## File contents -/

/-- The standard engine of the `base64` crate. -/
structure Base64 where
  decode : Text → Option (List UInt8)
  encode : List UInt8 → Text

/-- `IMAGE_PREVIEW_MAX_BYTES`. -/
def IMAGE_PREVIEW_MAX_BYTES : ℕ := 5 * 1024 * 1024

/-- `Path::extension`: the part of the last path component after its last dot, unless the dot is its
first character. -/
def extension (path : Text) : Option Text := do
  let components := (path.splitOn '/').filter fun c => c ≠ [] ∧ c ≠ ['.']
  let fileName ← components.getLast?
  let parts := fileName.splitOn '.'
  if fileName = ['.', '.'] ∨ parts.length < 2 ∨ fileName.head? = some '.' ∧ parts.length = 2 then
    none
  else parts.getLast?

/-- `str::to_ascii_lowercase`. -/
def toAsciiLowercase (s : Text) : Text := s.map Char.toLower

/-- The image types that are shown as a preview. -/
def imageMime (ext : Option Text) : Option Text :=
  if ext = some "png".toList then some "image/png".toList
  else if ext = some "jpg".toList ∨ ext = some "jpeg".toList then some "image/jpeg".toList
  else if ext = some "gif".toList then some "image/gif".toList
  else if ext = some "webp".toList then some "image/webp".toList
  else none

section Collect

variable (base64 : Base64)

/-- `file_content_binary_or_image`. -/
def fileContentBinaryOrImage (bytes : List UInt8) (path : Text) : FileContent :=
  if bytes.length > IMAGE_PREVIEW_MAX_BYTES then .binary
  else
    match imageMime ((extension path).map toAsciiLowercase) with
    | some mime => .imageBase64 mime (base64.encode bytes)
    | none => .binary

/-- `file_content_from_bytes`. -/
def fileContentFromBytes (bytes : List UInt8) (path : Text) : FileContent :=
  if 0 ∈ bytes.take 8192 then fileContentBinaryOrImage base64 bytes path
  else .text (lines (fromUtf8Lossy bytes))

/-- `decode_file`: content that is not base64 counts as empty. -/
def decodeFile (b64 path : Text) : File :=
  ⟨path, fileContentFromBytes base64 ((base64.decode b64).getD []) path⟩

/-! ## Script output to diffs -/

/-- `supports_line_stats`. -/
def supportsLineStats : Option File → Bool
  | some ⟨_, .binary⟩ => false
  | some ⟨_, .imageBase64 _ _⟩ => false
  | _ => true

/-- The loop of `line_stats_from_patch`. -/
def countPatchLines : List Text → ℕ → ℕ → Option (ℕ × ℕ)
  | [], added, deleted => some (added, deleted)
  | line :: rest, added, deleted =>
    if ['+', '+', '+', ' '] <+: line ∨ ['-', '-', '-', ' '] <+: line then
      countPatchLines rest added deleted
    else if ['+'] <+: line then do countPatchLines rest (← addU32 added 1) deleted
    else if ['-'] <+: line then do countPatchLines rest added (← addU32 deleted 1)
    else countPatchLines rest added deleted

/-- `line_stats_from_patch`; the outer option is the overflow of a counter. -/
def lineStatsFromPatch (patch : Text) (before after : Option File) :
    Option (Option ℕ × Option ℕ) :=
  if !supportsLineStats before || !supportsLineStats after then some (none, none)
  else (countPatchLines (lines patch) 0 0).map fun n => (some n.1, some n.2)

/-- An empty path of the script output stands for a missing one. -/
def scriptPath (raw : Text) : Option Text := if raw = [] then none else some raw

/-- The path under which the diff of an entry is kept: the after path, else the before path. An
entry without one is skipped. -/
def CollectScriptFile.canonicalPath (entry : CollectScriptFile) : Option Text :=
  ((scriptPath entry.afterPath).or (scriptPath entry.beforePath)).filter (· ≠ [])

/-- The body of the loop of `parse_script_files` for an entry with a canonical path. -/
def parseScriptFile (entry : CollectScriptFile) (canonicalPath : Text) :
    Option (FileDiffSummary × FileDiff) := do
  let beforePath := scriptPath entry.beforePath
  let afterPath := scriptPath entry.afterPath
  let before := entry.beforeContentB64.map fun b64 =>
    decodeFile base64 b64 (beforePath.getD canonicalPath)
  let after := entry.afterContentB64.map fun b64 =>
    decodeFile base64 b64 (afterPath.getD canonicalPath)
  let (addedLines, deletedLines) ← lineStatsFromPatch entry.patch before after
  let alignments ← computeRemoteAlignments (parseUnifiedHunks entry.patch) before after
  some (⟨beforePath, afterPath, addedLines, deletedLines⟩, ⟨before, after, alignments⟩)

/-- The loop of `parse_script_files`. -/
def parseScriptLoop : List CollectScriptFile → List FileDiffSummary → Table Text FileDiff →
    Option (List FileDiffSummary × Table Text FileDiff)
  | [], files, fileDiffs => some (files, fileDiffs)
  | entry :: rest, files, fileDiffs =>
    match entry.canonicalPath with
    | none => parseScriptLoop rest files fileDiffs
    | some path => do
        let (summary, diff) ← parseScriptFile base64 entry path
        parseScriptLoop rest (files ++ [summary]) (fileDiffs.insert path diff)

/-- `parse_script_files`. -/
def parseScriptFiles (entries : List CollectScriptFile) :
    Option (List FileDiffSummary × Table Text FileDiff) :=
  parseScriptLoop base64 entries [] ∅

/-- The body of the loop over the commits in `collect_branch_diff`. -/
def parseScriptCommit (cachedAt : ℕ) (commit : CollectScriptCommit) :
    Option (CachedCommitIndex × Table Text FileDiff) := do
  let (files, fileDiffs) ← parseScriptFiles base64 commit.files
  some (⟨commit.sha, commit.parent, files, cachedAt⟩, fileDiffs)

/-- Parse the whole script output. -/
def parseScriptOutput (branchId : Text) (cachedAt : ℕ) (out : CollectScriptOutput) :
    Option CollectedDiffs := do
  let (files, fileDiffs) ← parseScriptFiles base64 out.files
  let commitResults ← out.commits.mapM (parseScriptCommit base64 cachedAt)
  some ⟨⟨branchId, out.base, out.head, files, cachedAt⟩, fileDiffs, commitResults⟩

/-- `collect_branch_diff`, after the remote call. -/
def collectBranchDiff (branchId : Text) (cachedAt : ℕ) (result : ScriptResult) :
    Except DiffError CollectedDiffs :=
  match result with
  | .failed e => .error (.scriptFailed e)
  | .unparsable e => .error (.scriptOutput e)
  | .output out =>
    match parseScriptOutput base64 branchId cachedAt out with
    | some collected => .ok collected
    | none => .error .overflow

/-! ## Indexes and the diffs beside them -/

variable {base64}

/-- A summary reports the path its diff is kept under. -/
theorem path_of_parseScriptFile {entry : CollectScriptFile} {path : Text}
    {summary : FileDiffSummary} {diff : FileDiff} (hpath : entry.canonicalPath = some path)
    (h : parseScriptFile base64 entry path = some (summary, diff)) : summary.path = some path := by
  simp only [parseScriptFile, Option.bind_eq_bind, Option.bind_eq_some_iff, Option.some.injEq,
    Prod.mk.injEq] at h
  obtain ⟨⟨added, deleted⟩, -, alignments, -, hsummary, -⟩ := h
  rw [← hsummary]
  exact (Option.filter_eq_some_iff.mp hpath).1

/-- What the loop of `parse_script_files` keeps: every summary so far has its diff in the table, and
the diffs are those of the entries with a canonical path. -/
theorem parseScriptLoop_spec {entries done : List CollectScriptFile} {files : List FileDiffSummary}
    {fileDiffs : Table Text FileDiff} {result : List FileDiffSummary × Table Text FileDiff}
    (hfiles : ∀ f ∈ files, ∃ path ∈ fileDiffs, f.path = some path)
    (hkeys : ∀ path, path ∈ fileDiffs ↔ path ∈ done.filterMap CollectScriptFile.canonicalPath)
    (h : parseScriptLoop base64 entries files fileDiffs = some result) :
    (∀ f ∈ result.1, ∃ path ∈ result.2, f.path = some path) ∧
      ∀ path, path ∈ result.2 ↔
        path ∈ (done ++ entries).filterMap CollectScriptFile.canonicalPath := by
  induction entries generalizing done files fileDiffs with
  | nil =>
    rw [parseScriptLoop, Option.some.injEq] at h
    rw [← h, List.append_nil]
    exact ⟨hfiles, hkeys⟩
  | cons entry rest ih =>
    rw [List.append_cons]
    cases hpath : entry.canonicalPath with
    | none =>
      simp only [parseScriptLoop, hpath] at h
      refine ih hfiles ?_ h
      intro path
      rw [hkeys path, List.filterMap_append]
      simp [hpath]
    | some canonical =>
      simp only [parseScriptLoop, hpath, Option.bind_eq_bind, Option.bind_eq_some_iff] at h
      obtain ⟨⟨summary, diff⟩, hparse, hloop⟩ := h
      refine ih ?_ ?_ hloop
      · -- a later entry with the same path replaces the diff but keeps the key
        intro f hf
        rcases List.mem_append.mp hf with hf | hf
        · obtain ⟨path, hp, hfp⟩ := hfiles f hf
          exact ⟨path, (AList.mem_insert fileDiffs).mpr (.inr hp), hfp⟩
        · rw [List.mem_singleton.mp hf]
          exact ⟨canonical, (AList.mem_insert fileDiffs).mpr (.inl rfl),
            path_of_parseScriptFile hpath hparse⟩
      · intro path
        rw [AList.mem_insert, hkeys path, List.filterMap_append]
        simp [hpath, or_comm, eq_comm]

/-- The files of a parsed list and its diffs belong together. -/
theorem parseScriptFiles_spec {entries : List CollectScriptFile} {files : List FileDiffSummary}
    {fileDiffs : Table Text FileDiff} (h : parseScriptFiles base64 entries = some (files, fileDiffs)) :
    (∀ f ∈ files, ∃ path ∈ fileDiffs, f.path = some path) ∧
      ∀ path, path ∈ fileDiffs ↔ path ∈ entries.filterMap CollectScriptFile.canonicalPath := by
  have hkeys : ∀ path, path ∈ (∅ : Table Text FileDiff) ↔
      path ∈ ([] : List CollectScriptFile).filterMap CollectScriptFile.canonicalPath :=
    fun path => iff_of_false (AList.notMem_empty path) List.not_mem_nil
  simpa using parseScriptLoop_spec (by simp) hkeys h

/-- The parsed commits are those of the script output, in its order. -/
theorem commitResults_of_mapM {cachedAt : ℕ} {commits : List CollectScriptCommit}
    {results : List (CachedCommitIndex × Table Text FileDiff)}
    (h : commits.mapM (parseScriptCommit base64 cachedAt) = some results) :
    List.Forall₂ (fun commit r => parseScriptCommit base64 cachedAt commit = some r)
      commits results := by
  induction commits generalizing results with
  | nil =>
    simp only [List.mapM_nil, Option.pure_def, Option.some.injEq] at h
    rw [← h]
    exact .nil
  | cons commit rest ih =>
    simp only [List.mapM_cons, Option.bind_eq_bind, Option.bind_eq_some_iff, Option.pure_def,
      Option.some.injEq] at h
    obtain ⟨r, hr, rs, hrs, rfl⟩ := h
    exact .cons hr (ih hrs)

theorem collectBranchDiff_eq_ok {branchId : Text} {cachedAt : ℕ} {result : ScriptResult}
    {collected : CollectedDiffs}
    (h : collectBranchDiff base64 branchId cachedAt result = .ok collected) :
    ∃ out, result = .output out ∧
      List.Forall₂ (fun commit r => parseScriptCommit base64 cachedAt commit = some r)
        out.commits collected.commitResults := by
  unfold collectBranchDiff at h
  split at h
  · cases h
  · cases h
  · rename_i out
    refine ⟨out, rfl, ?_⟩
    split at h
    · rename_i parsed hparsed
      simp only [parseScriptOutput, Option.bind_eq_bind, Option.bind_eq_some_iff,
        Option.some.injEq] at hparsed
      obtain ⟨⟨files, fileDiffs⟩, -, results, hresults, rfl⟩ := hparsed
      rw [Except.ok.injEq] at h
      rw [← h]
      exact commitResults_of_mapM hresults
    · cases h

/-- A failed collection does not report a missing file. -/
theorem ne_fileNotFound_of_collectBranchDiff {branchId : Text} {cachedAt : ℕ}
    {result : ScriptResult} {e : DiffError}
    (h : collectBranchDiff base64 branchId cachedAt result = .error e) (path : Text) :
    e ≠ .fileNotFound path := by
  unfold collectBranchDiff at h
  rintro rfl
  split at h
  · cases h
  · cases h
  · split at h <;> cases h

end Collect

end Builderbot.Staged
