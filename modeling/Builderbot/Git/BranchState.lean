import Builderbot.Git.FetchCache
import Builderbot.Git.Porcelain

/-!
# The git state of a branch

`apps/staged/src-tauri/src/git/state.rs` computes the state of a branch twice: `compute_branch_git_state`
runs git once for each question, and `compute_branch_git_state_batched` sends one shell script that asks
all of them and prints the answers line by line. Both are modelled here, over the answers of git.
-/

namespace Builderbot.Git

open Lib.Text

/-! ## Data -/

inductive WorktreeStatusScope where
  | indexed
  | full
deriving DecidableEq, Repr

inductive UpstreamRelation where
  | missing
  | inSync
  | localAhead
  | originAhead
  | diverged
deriving DecidableEq, Repr

structure UpstreamGitState where
  ref : Text
  exists_ : Bool
  sha : Option Text
  relation : UpstreamRelation
  ahead : ℕ
  behind : ℕ
  mergeBaseSha : Option Text
  behindBase : ℕ
deriving DecidableEq, Repr

structure BaseGitState where
  ref : Text
  sha : Option Text
  commitsSinceFork : ℕ
deriving DecidableEq, Repr

structure WorktreeGitState where
  dirty : Bool := false
  modified : ℕ := 0
  added : ℕ := 0
  deleted : ℕ := 0
  untracked : ℕ := 0
  conflicted : ℕ := 0
deriving DecidableEq, Repr

structure BranchGitState where
  headSha : Option Text
  currentBranch : Option Text
  detachedHead : Bool
  expectedBranchMatches : Bool
  upstream : UpstreamGitState
  base : BaseGitState
  worktree : WorktreeGitState
  fetch : FetchGitState
deriving DecidableEq, Repr

/-- The relation that belongs to the numbers of commits on each side. -/
def relationOf : ℕ → ℕ → UpstreamRelation
  | 0, 0 => .inSync
  | _, 0 => .localAhead
  | 0, _ => .originAhead
  | _, _ => .diverged

/-! ## Questions to git -/

/-- The commands that only read. Revisions are texts, as on the command line. -/
inductive GitQuery where
  /-- `rev-parse HEAD`. -/
  | revParseHead
  /-- `branch --show-current`. -/
  | branchShowCurrent
  /-- `status --porcelain=1` with the flag of the scope. -/
  | status (scope : WorktreeStatusScope)
  /-- `rev-parse --verify`. -/
  | revParseVerify (reference : Text)
  /-- `rev-list --left-right --count left...right`. -/
  | leftRightCount (left right : Text)
  /-- `merge-base`. -/
  | mergeBase (left right : Text)
  /-- `rev-list --count left..right`. -/
  | revListCount (left right : Text)
deriving DecidableEq, Repr

structure GitOutput where
  stdout : Text
  success : Bool
deriving DecidableEq, Repr

/-- The result of `run_git` when the error does not matter. -/
def GitOutput.ok (out : GitOutput) : Option Text := if out.success then some out.stdout else none

/-- `trim_non_empty`. -/
def trimNonEmpty (output : Text) : Option Text :=
  let trimmed := trim output
  if trimmed = [] then none else some trimmed

/-- `parse_u32`. -/
def parseCount (raw : Option Text) : ℕ := (raw.bind parseU32).getD 0

/-- The two numbers of `rev-list --left-right --count`. -/
def GitOutput.leftRight (out : GitOutput) : ℕ × ℕ :=
  match out.ok with
  | some output => (parseCount (splitWhitespace output)[0]?, parseCount (splitWhitespace output)[1]?)
  | none => (0, 0)

/-! ## The state of the working tree -/

/-- `is_conflicted_status`. -/
def isConflictedStatus (x y : Char) : Bool :=
  [('D', 'D'), ('A', 'U'), ('U', 'D'), ('U', 'A'), ('D', 'U'), ('A', 'A'), ('U', 'U')].contains (x, y)

/-- The last part of the text between occurrences of ` -> `. -/
def renameTarget (path : Text) : Text :=
  match _h : splitOnce [' ', '-', '>', ' '] path with
  | none => path
  | some (_, rest) => renameTarget rest
termination_by path.length
decreasing_by
  rw [splitOnce, List.dropInfix?_eq_some_iff] at _h
  obtain ⟨⟨i, rfl, hi⟩, -⟩ := _h
  rw [eq_of_beq hi]
  simp
  omega

/-- The body of the loop of `parse_worktree_from_status`; `seen` are the paths that were counted. -/
def countStatusLine (acc : WorktreeGitState × List Text) (line : Text) :
    WorktreeGitState × List Text :=
  let (state, seen) := acc
  let x := line.head?.getD ' '
  let y := line.tail.head?.getD ' '
  if x = '?' ∧ y = '?' then ({ state with untracked := state.untracked + 1 }, seen)
  else if isConflictedStatus x y then ({ state with conflicted := state.conflicted + 1 }, seen)
  else
    let dedupPath := renameTarget (line.drop 3)
    if seen.contains dedupPath then (state, seen)
    else
      let code := if x ≠ ' ' then x else y
      let state :=
        if code = 'A' ∨ code = 'C' then { state with added := state.added + 1 }
        else if code = 'D' then { state with deleted := state.deleted + 1 }
        else { state with modified := state.modified + 1 }
      (state, dedupPath :: seen)

/-- `parse_worktree_from_status`, on the lines of the output. -/
def worktreeOfLines (statusLines : List Text) : WorktreeGitState :=
  let state := (statusLines.foldl countStatusLine ({}, [])).1
  { state with
    dirty := 0 < state.modified || 0 < state.added || 0 < state.deleted || 0 < state.untracked ||
      0 < state.conflicted }

/-- `parse_worktree_from_status`. -/
def parseWorktreeFromStatus (statusOutput : Text) : WorktreeGitState :=
  worktreeOfLines (lines statusOutput)

/-! ## One command for each question -/

section Single

variable (git : GitQuery → GitOutput)

/-- `rev_count`. -/
def revCount (left right : Text) : ℕ :=
  parseCount ((git (.revListCount left right)).ok.bind trimNonEmpty)

/-- `current_branch`. -/
def currentBranch : Option Text := (git .branchShowCurrent).ok.bind trimNonEmpty

/-- `resolve_ref`. -/
def resolveRef (reference : Text) : Option Text := (git (.revParseVerify reference)).ok.bind trimNonEmpty

/-- `merge_base`. -/
def mergeBase (left right : Text) : Option Text := (git (.mergeBase left right)).ok.bind trimNonEmpty

/-- The revision `HEAD`. -/
def headRev : Text := ['H', 'E', 'A', 'D']

/-- `compute_upstream_state`. -/
def computeUpstreamState (upstreamRef baseRef : Text) (headSha : Option Text)
    (upstreamKnownMissing : Bool) : UpstreamGitState :=
  let sha := if upstreamKnownMissing then none else resolveRef git upstreamRef
  if sha = none ∨ headSha = none then
    { ref := upstreamRef
      exists_ := sha.isSome
      sha
      relation := .missing
      ahead := 0
      behind := 0
      mergeBaseSha := none
      behindBase := 0 }
  else
    let counts := (git (.leftRightCount headRev upstreamRef)).leftRight
    { ref := upstreamRef
      exists_ := sha.isSome
      sha
      relation := relationOf counts.1 counts.2
      ahead := counts.1
      behind := counts.2
      mergeBaseSha := mergeBase git headRev upstreamRef
      behindBase := if upstreamRef = baseRef then 0 else revCount git upstreamRef baseRef }

/-- `compute_base_state`. -/
def computeBaseState (baseRef : Text) (headSha : Option Text) : BaseGitState :=
  let sha := resolveRef git baseRef
  { ref := baseRef
    sha
    commitsSinceFork :=
      if sha.isSome ∧ headSha.isSome then
        match mergeBase git headRev baseRef with
        | some base => revCount git base baseRef
        | none => 0
      else 0 }

/-- `compute_worktree_state`. -/
def computeWorktreeState (scope : WorktreeStatusScope) : WorktreeGitState :=
  match (git (.status scope)).ok with
  | some output => parseWorktreeFromStatus output
  | none => {}

end Single

variable {σ : Type}

/-- `compute_branch_git_state`. The state `σ` is what a fetch changes; `query` are the answers of git in
such a state. The commands that run next to the fetch read nothing that a fetch changes. -/
def computeBranchGitState (caches : FetchCaches) (cacheKey : Text)
    (runFetch : FetchCommand → StateM σ (Except Text Text)) (query : σ → GitQuery → GitOutput)
    (branchName baseBranch : Text) (fetchMode : FetchMode) (worktreeScope : WorktreeStatusScope)
    (now : ℤ) : StateM σ (BranchGitState × FetchCaches) := do
  let before ← get
  let headSha := (query before .revParseHead).ok.bind trimNonEmpty
  let branch := currentBranch (query before)
  let worktree := computeWorktreeState (query before) worktreeScope
  let (refresh, caches) ←
    caches.refreshRefsIfNeeded cacheKey runFetch branchName baseBranch fetchMode now
  let after ← get
  let upstreamRef := originRefForBranch branchName
  let baseRef := originRefForBranch baseBranch
  return ({
    headSha
    currentBranch := branch
    detachedHead := headSha.isSome && branch.isNone
    expectedBranchMatches := branch = some (branchNameWithoutOrigin branchName)
    upstream := computeUpstreamState (query after) upstreamRef baseRef headSha
      refresh.upstreamKnownMissing
    base := computeBaseState (query after) baseRef headSha
    worktree
    fetch := refresh.fetch }, caches)

/-! ## The script -/

/-- The lines with a value. -/
inductive BatchKey where
  | head
  | branch
  | upstreamMissing
  | fetchErr
  | upSha
  | upCounts
  | upMb
  | upBehindBase
  | baseSha
  | baseMb
  | baseBehind
deriving DecidableEq, Repr

namespace BatchKey

/-- What such a line starts with. -/
def label : BatchKey → Text
  | head => ['H', 'E', 'A', 'D', '=']
  | branch => ['B', 'R', 'A', 'N', 'C', 'H', '=']
  | upstreamMissing => ['U', 'P', 'S', 'T', 'R', 'E', 'A', 'M', '_', 'M', 'I', 'S', 'S', 'I', 'N', 'G', '=']
  | fetchErr => ['F', 'E', 'T', 'C', 'H', '_', 'E', 'R', 'R', '=']
  | upSha => ['U', 'P', '_', 'S', 'H', 'A', '=']
  | upCounts => ['U', 'P', '_', 'C', 'O', 'U', 'N', 'T', 'S', '=']
  | upMb => ['U', 'P', '_', 'M', 'B', '=']
  | upBehindBase => ['U', 'P', '_', 'B', 'E', 'H', 'I', 'N', 'D', '_', 'B', 'A', 'S', 'E', '=']
  | baseSha => ['B', 'A', 'S', 'E', '_', 'S', 'H', 'A', '=']
  | baseMb => ['B', 'A', 'S', 'E', '_', 'M', 'B', '=']
  | baseBehind => ['B', 'A', 'S', 'E', '_', 'B', 'E', 'H', 'I', 'N', 'D', '=']

/-- In the order in which the parser tries them. -/
def all : List BatchKey :=
  [head, branch, upstreamMissing, fetchErr, upSha, upCounts, upMb, upBehindBase, baseSha, baseMb,
    baseBehind]

end BatchKey

def statusStart : Text := ['S', 'T', 'A', 'T', 'U', 'S', '_', 'S', 'T', 'A', 'R', 'T']

def statusEnd : Text := ['S', 'T', 'A', 'T', 'U', 'S', '_', 'E', 'N', 'D']

/-- What `$(…)` makes of an output: line feeds at the end are removed. -/
def capture (output : Text) : Text := (output.reverse.dropWhile (· = '\n')).reverse

/-- `command || echo text`. -/
def GitOutput.orEcho (out : GitOutput) (text : Text) : Text :=
  if out.success then out.stdout else out.stdout ++ text ++ ['\n']

/-- A regular expression in which the `.` stands for any character matches at the start of the line. -/
def matchesHere : Text → Text → Bool
  | [], _ => true
  | _ :: _, [] => false
  | p :: ps, c :: cs => (p = '.' || p = c.toLower) && matchesHere ps cs

/-- `grep -qi`: some line has a place where one of the expressions matches. -/
def grepAny (patterns : List Text) (text : Text) : Bool :=
  (text.splitOn '\n').any fun line => line.tails.any fun rest => patterns.any (matchesHere · rest)

/-- The test of the script for a missing remote ref. -/
def grepMissingRemoteRef (ferr : Text) : Bool :=
  grepAny ["could.not.find.remote.ref".toList, "couldn.t.find.remote.ref".toList] ferr

/-- The fetch phase of `BATCH_GIT_STATE_SCRIPT`: the variables `fetch_err` and `upstream_missing`. -/
def batchFetch (runFetch : FetchCommand → StateM σ (Except Text Text))
    (baseRefspec branchRefspec : Text) : StateM σ (Text × Bool) := do
  if branchRefspec ≠ [] then
    match ← runFetch ⟨true, [baseRefspec, branchRefspec]⟩ with
    | .ok _ => return ([], false)
    | .error ferr =>
      if grepMissingRemoteRef ferr then
        match ← runFetch ⟨true, [baseRefspec]⟩ with
        | .ok _ => return ([], true)
        | .error ferr => return (capture ferr, false)
      else return (capture ferr, false)
  else
    match ← runFetch ⟨true, [baseRefspec]⟩ with
    | .ok _ => return ([], false)
    | .error ferr => return (capture ferr, false)

/-- `printf` of a line with a value. -/
def printKey (key : BatchKey) (value : Text) : Text := key.label ++ value ++ ['\n']

section Report

variable (git : GitQuery → GitOutput) (headSha upstreamRef baseRef : Text)

/-- The section of `BATCH_GIT_STATE_SCRIPT` about the upstream. -/
def reportUpstream (upSha : Text) : Text :=
  printKey .upSha upSha ++
  if upSha ≠ [] ∧ headSha ≠ [] then
    printKey .upCounts (capture ((git (.leftRightCount headSha upstreamRef)).orEcho ['0', ' ', '0'])) ++
    (printKey .upMb (capture (git (.mergeBase headSha upstreamRef)).stdout) ++
    printKey .upBehindBase (if upstreamRef ≠ baseRef then
      capture ((git (.revListCount upstreamRef baseRef)).orEcho ['0']) else ['0']))
  else []

/-- The section about the base. -/
def reportBase : Text :=
  let baseSha := capture (git (.revParseVerify baseRef)).stdout
  let mb := capture (git (.mergeBase headSha baseRef)).stdout
  printKey .baseSha baseSha ++
  if baseSha ≠ [] ∧ headSha ≠ [] then
    printKey .baseMb mb ++
    if mb ≠ [] then printKey .baseBehind (capture ((git (.revListCount mb baseRef)).orEcho ['0'])) else []
  else []

/-- What `BATCH_GIT_STATE_SCRIPT` prints after the fetch phase. -/
def batchReport (fetchErr : Text) (upstreamMissing : Bool) (scope : WorktreeStatusScope) : Text :=
  let headSha := capture (git .revParseHead).stdout
  let upSha :=
    if upstreamRef ≠ [] ∧ upstreamMissing = false then
      capture (git (.revParseVerify upstreamRef)).stdout
    else []
  printKey .head headSha ++
  (printKey .branch (capture (git .branchShowCurrent).stdout) ++
  (statusStart ++ ['\n'] ++ ((git (.status scope)).stdout ++ (statusEnd ++ ['\n'] ++
  ((if upstreamMissing then printKey .upstreamMissing ['t', 'r', 'u', 'e'] else []) ++
  ((if fetchErr ≠ [] then printKey .fetchErr fetchErr else []) ++
  (reportUpstream git headSha upstreamRef baseRef upSha ++ reportBase git headSha baseRef)))))))

end Report

/-- `BATCH_GIT_STATE_SCRIPT`, in a directory that exists and with a temporary file. -/
def batchGitStateScript (runFetch : FetchCommand → StateM σ (Except Text Text))
    (query : σ → GitQuery → GitOutput) (baseRefspec branchRefspec upstreamRef baseRef : Text)
    (skipFetch : Bool) (scope : WorktreeStatusScope) : StateM σ Text := do
  let (fetchErr, upstreamMissing) ←
    if skipFetch then pure ([], false) else batchFetch runFetch baseRefspec branchRefspec
  return batchReport (query (← get)) upstreamRef baseRef fetchErr upstreamMissing scope

/-! ## The parser -/

structure BatchGitStateOutput where
  headSha : Option Text := none
  branch : Option Text := none
  statusLines : Text := []
  upstreamMissing : Bool := false
  fetchError : Option Text := none
  upSha : Option Text := none
  upAhead : ℕ := 0
  upBehind : ℕ := 0
  upMergeBase : Option Text := none
  upBehindBase : ℕ := 0
  baseSha : Option Text := none
  baseBehind : ℕ := 0
deriving DecidableEq, Repr

/-- A value replaces the one before unless it is blank. -/
def nonBlankOr (value : Text) (previous : Option Text) : Option Text := (trimNonEmpty value).or previous

/-- What a line with a value sets. -/
def BatchGitStateOutput.set (out : BatchGitStateOutput) (val : Text) : BatchKey → BatchGitStateOutput
  | .head => { out with headSha := nonBlankOr val out.headSha }
  | .branch => { out with branch := nonBlankOr val out.branch }
  | .upstreamMissing => { out with upstreamMissing := true }
  | .fetchErr => { out with fetchError := nonBlankOr val out.fetchError }
  | .upSha => { out with upSha := nonBlankOr val out.upSha }
  | .upCounts =>
    { out with
      upAhead := parseCount (splitWhitespace val)[0]?
      upBehind := parseCount (splitWhitespace val)[1]? }
  | .upMb => { out with upMergeBase := nonBlankOr val out.upMergeBase }
  | .upBehindBase => { out with upBehindBase := parseCount (some (trim val)) }
  | .baseSha => { out with baseSha := nonBlankOr val out.baseSha }
  | .baseMb => out
  | .baseBehind => { out with baseBehind := parseCount (some (trim val)) }

/-- The key of a line and its value. -/
def findKey (line : Text) : Option (BatchKey × Text) :=
  BatchKey.all.findSome? fun key => (List.dropPrefix? line key.label).map (key, ·)

/-- The body of the loop of `parse_batch_git_state_output`; the flag is `in_status`. -/
def parseBatchLine (acc : BatchGitStateOutput × Bool) (line : Text) : BatchGitStateOutput × Bool :=
  let (out, inStatus) := acc
  if line = statusStart then (out, true)
  else if line = statusEnd then (out, false)
  else if inStatus then
    ({ out with
      statusLines :=
        (if out.statusLines ≠ [] then out.statusLines ++ ['\n'] else out.statusLines) ++ line }, inStatus)
  else
    match findKey line with
    | some (key, val) => (out.set val key, inStatus)
    | none => (out, inStatus)

/-- `parse_batch_git_state_output`. -/
def parseBatchGitStateOutput (raw : Text) : BatchGitStateOutput :=
  ((lines raw).foldl parseBatchLine ({}, false)).1

/-! ## The batched computation -/

/-- The state that is built from the parsed output. -/
def BatchGitStateOutput.state (parsed : BatchGitStateOutput) (branchName baseBranch : Text)
    (fetch : FetchGitState) : BranchGitState where
  headSha := parsed.headSha
  currentBranch := parsed.branch
  detachedHead := parsed.headSha.isSome && parsed.branch.isNone
  expectedBranchMatches := parsed.branch = some (branchNameWithoutOrigin branchName)
  upstream :=
    { ref := originRefForBranch branchName
      exists_ := parsed.upSha.isSome
      sha := parsed.upSha
      relation :=
        if parsed.upSha = none ∨ parsed.headSha = none then .missing
        else relationOf parsed.upAhead parsed.upBehind
      ahead := parsed.upAhead
      behind := parsed.upBehind
      mergeBaseSha := parsed.upMergeBase
      behindBase := parsed.upBehindBase }
  base :=
    { ref := originRefForBranch baseBranch
      sha := parsed.baseSha
      commitsSinceFork := parsed.baseBehind }
  worktree := parseWorktreeFromStatus parsed.statusLines
  fetch := fetch

/-- What is reported without a fetch. -/
def cachedFetchState (previous : Option FetchCacheEntry) : FetchGitState :=
  let fetchedAt := previous.map FetchCacheEntry.fetchedAt
  ⟨if fetchedAt.isSome then .fresh else .stale, fetchedAt, none⟩

/-- `compute_branch_git_state_batched`, when the script runs to its end. -/
def computeBranchGitStateBatched (caches : FetchCaches) (cacheKey : Text)
    (runFetch : FetchCommand → StateM σ (Except Text Text)) (query : σ → GitQuery → GitOutput)
    (branchName baseBranch : Text) (fetchMode : FetchMode) (worktreeScope : WorktreeStatusScope)
    (now : ℤ) : StateM σ (BranchGitState × FetchCaches) := do
  let baseRefspec := refspecFor baseBranch
  let branchRefspec := refspecFor branchName
  let upstreamRef := originRefForBranch branchName
  let baseRef := originRefForBranch baseBranch
  let previous := caches.branches.lookup cacheKey
  let shouldFetch := branchNeedsFetch previous fetchMode now
  let branchArg := if branchRefspec ≠ baseRefspec then branchRefspec else []
  let cachedUpstreamMissing := (previous.map FetchCacheEntry.upstreamKnownMissing).getD false
  let upRefArg := if !shouldFetch && cachedUpstreamMissing then [] else upstreamRef
  let raw ← batchGitStateScript runFetch query baseRefspec branchArg upRefArg baseRef (!shouldFetch)
    worktreeScope
  let parsed := parseBatchGitStateOutput raw
  if shouldFetch then
    match parsed.fetchError with
    | some err =>
      let fetch := ⟨.failed, previous.map FetchCacheEntry.fetchedAt, some err⟩
      return (parsed.state branchName baseBranch fetch, caches)
    | none =>
      let branches := caches.branches.insert cacheKey ⟨now, parsed.upstreamMissing⟩
      return (parsed.state branchName baseBranch ⟨.fresh, some now, none⟩, { caches with branches })
  else return (parsed.state branchName baseBranch (cachedFetchState previous), caches)

end Builderbot.Git
