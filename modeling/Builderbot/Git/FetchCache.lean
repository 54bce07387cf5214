import Builderbot.Git.Types
import Builderbot.Lib.Table

/-!
# The fetch caches

`refresh_refs_if_needed` of `apps/staged/src-tauri/src/git/state.rs` decides whether the remote refs of a
branch and its base have to be fetched. It keeps one cache for each branch and, for local clones, one for
each repository, which remembers which refspecs the last fetches included. `update_repo_fetch_cache` is
called by the background sync after a fetch of its own.
-/

namespace Builderbot.Git

open Lib.Text

/-! ## Branches and refspecs -/

/-- `branch_name_without_origin`. -/
def branchNameWithoutOrigin (branch : Text) : Text :=
  (List.dropPrefix? branch "origin/".toList).getD branch

/-- `origin_ref_for_branch`. -/
def originRefForBranch (branch : Text) : Text :=
  "origin/".toList ++ branchNameWithoutOrigin (trim branch)

/-- `refspec_for`. -/
def refspecFor (remoteBranch : Text) : Text :=
  let branch := branchNameWithoutOrigin remoteBranch
  "+refs/heads/".toList ++ branch ++ ":refs/remotes/origin/".toList ++ branch

/-- The refspecs that are needed for a branch and its base. -/
def neededRefspecs (branchName baseBranch : Text) : List Text :=
  if refspecFor branchName ≠ refspecFor baseBranch then
    [refspecFor baseBranch, refspecFor branchName]
  else [refspecFor baseBranch]

/-- `is_missing_remote_ref`. -/
def isMissingRemoteRef (error : Text) : Bool :=
  let lower := error.map Char.toLower
  contains "couldn't find remote ref".toList lower || contains "could not find remote ref".toList lower

/-- `local_git_state_cache_key`. -/
def localGitStateCacheKey (repo branchName baseBranch : Text) : Text :=
  "local:".toList ++ (repo ++ ':' :: branchName ++ ':' :: baseBranch)

/-- The key of a local repository. -/
def localRepoKey (repoPath : Text) : Text := "local:".toList ++ repoPath

/-- `repo_key_from_local_cache_key`. -/
def repoKeyFromLocalCacheKey (cacheKey : Text) : Option Text := do
  let rest ← List.dropPrefix? cacheKey "local:".toList
  let (withoutBase, _) ← rsplitOnce ':' rest
  let (repoPath, _) ← rsplitOnce ':' withoutBase
  return localRepoKey repoPath

/-! ## The caches -/

/-- `FETCH_TTL_MS`. -/
def fetchTtlMs : ℤ := 30000

inductive FetchMode where
  | ttl
  | force
  | never
deriving DecidableEq, Repr

inductive FetchStatus where
  | fresh
  | stale
  | failed
deriving DecidableEq, Repr

structure FetchGitState where
  status : FetchStatus
  fetchedAt : Option ℤ
  error : Option Text
deriving DecidableEq, Repr

structure FetchCacheEntry where
  fetchedAt : ℤ
  upstreamKnownMissing : Bool
deriving DecidableEq, Repr

structure RefreshOutcome where
  fetch : FetchGitState
  upstreamKnownMissing : Bool
deriving DecidableEq, Repr

/-- `RepoFetchEntry`; the set of refspecs is a list. -/
structure RepoFetchEntry where
  fetchedAt : ℤ
  fetchedRefspecs : List Text
deriving DecidableEq, Repr

/-- `fetch_cache` and `repo_fetch_cache`. -/
structure FetchCaches where
  branches : Table Text FetchCacheEntry := ∅
  repos : Table Text RepoFetchEntry := ∅

/-- The arguments `fetch [--prune] origin refspecs…`. -/
structure FetchCommand where
  prune : Bool
  refspecs : List Text
deriving DecidableEq, Repr

/-! ## Refreshing -/

/-- `refspecs_to_fetch`, with the entry of the repository. -/
def refspecsToFetch (repoEntry : Option RepoFetchEntry) (needed : List Text) (fetchMode : FetchMode)
    (now : ℤ) : Option (List Text) :=
  match fetchMode with
  | .never => none
  | .force => some needed
  | .ttl =>
    match repoEntry with
    | some entry =>
      if now - entry.fetchedAt ≤ fetchTtlMs then
        let missing := needed.filter fun rs => !entry.fetchedRefspecs.contains rs
        if missing = [] then none else some missing
      else some needed
    | none => some needed

/-- Whether a branch whose last fetch is remembered is fetched again. -/
def branchNeedsFetch (previous : Option FetchCacheEntry) (fetchMode : FetchMode) (now : ℤ) : Bool :=
  match fetchMode, previous with
  | .never, _ => false
  | .force, _ => true
  | .ttl, some entry => fetchTtlMs < now - entry.fetchedAt
  | .ttl, none => true

variable {σ : Type}

/-- The fetches of `refresh_refs_if_needed`: an error, or whether the upstream is known to be missing. -/
def fetchRefspecs (runGit : FetchCommand → StateM σ (Except Text Text)) (isNarrow : Bool)
    (baseRefspec : Text) (refspecs : List Text) : StateM σ (Except Text Bool) := do
  if 1 < refspecs.length then
    match ← runGit ⟨!isNarrow, refspecs⟩ with
    | .ok _ => return .ok false
    | .error error =>
      if isMissingRemoteRef error then
        match ← runGit ⟨!isNarrow, [baseRefspec]⟩ with
        | .ok _ => return .ok true
        | .error baseErr => return .error (trim baseErr)
      else return .error (trim error)
  else
    match ← runGit ⟨!isNarrow, [refspecs.head?.getD baseRefspec]⟩ with
    | .ok _ => return .ok false
    | .error error =>
      if isMissingRemoteRef error then return .ok true else return .error (trim error)

/-- The outcome without a fetch. -/
def RefreshOutcome.cached (previous : Option FetchCacheEntry) (repoEntry : Option RepoFetchEntry) :
    RefreshOutcome :=
  let fetchedAt := (previous.map FetchCacheEntry.fetchedAt).or (repoEntry.map RepoFetchEntry.fetchedAt)
  { fetch := ⟨if fetchedAt.isSome then .fresh else .stale, fetchedAt, none⟩
    upstreamKnownMissing := (previous.map FetchCacheEntry.upstreamKnownMissing).getD false }

/-- What is remembered of a repository after a fetch. -/
def RepoFetchEntry.refreshed (entry : Option RepoFetchEntry) (now : ℤ) (isNarrow : Bool)
    (needed refspecs : List Text) : RepoFetchEntry where
  fetchedAt := now
  fetchedRefspecs :=
    if isNarrow then ((entry.map RepoFetchEntry.fetchedRefspecs).getD []) ++ refspecs else needed

namespace FetchCaches

variable (caches : FetchCaches)

/-- `refresh_refs_if_needed`. -/
def refreshRefsIfNeeded (cacheKey : Text) (runGit : FetchCommand → StateM σ (Except Text Text))
    (branchName baseBranch : Text) (fetchMode : FetchMode) (now : ℤ) :
    StateM σ (RefreshOutcome × FetchCaches) := do
  let previous := caches.branches.lookup cacheKey
  let needed := neededRefspecs branchName baseBranch
  let repoKey := repoKeyFromLocalCacheKey cacheKey
  let repoEntry := repoKey.bind fun key => caches.repos.lookup key
  let toFetch := refspecsToFetch repoEntry needed fetchMode now
  let shouldFetch := if repoKey.isSome then toFetch.isSome else branchNeedsFetch previous fetchMode now
  if !shouldFetch then return (.cached previous repoEntry, caches)
  else
    let refspecs := toFetch.getD needed
    let isNarrow := repoKey.isSome && refspecs.length < needed.length
    match ← fetchRefspecs runGit isNarrow (refspecFor baseBranch) refspecs with
    | .error error =>
      return (⟨⟨.failed, previous.map FetchCacheEntry.fetchedAt, some error⟩, false⟩, caches)
    | .ok upstreamKnownMissing =>
      let branches := caches.branches.insert cacheKey ⟨now, upstreamKnownMissing⟩
      let repos := match repoKey with
        | some key =>
          caches.repos.insert key (.refreshed (caches.repos.lookup key) now isNarrow needed refspecs)
        | none => caches.repos
      return (⟨⟨.fresh, some now, none⟩, upstreamKnownMissing⟩, ⟨branches, repos⟩)

/-- `update_repo_fetch_cache`. -/
def updateRepoFetchCache (repoPath : Text) (now : ℤ) : FetchCaches :=
  { caches with
    repos := caches.repos.upsert (localRepoKey repoPath) ⟨now, []⟩ fun entry =>
      { entry with fetchedAt := now } }

end FetchCaches

/-! ## Running the fetches -/

section Running

variable (runGit : FetchCommand → StateM σ (Except Text Text)) (isNarrow : Bool)

theorem fetchRefspecs_single (base refspec : Text) (s : σ) :
    (fetchRefspecs runGit isNarrow base [refspec]).run s =
      match (runGit ⟨!isNarrow, [refspec]⟩).run s with
      | (.ok _, t) => (.ok false, t)
      | (.error error, t) =>
        (if isMissingRemoteRef error then .ok true else .error (trim error), t) := by
  show (runGit ⟨!isNarrow, [refspec]⟩ >>= _).run s = _
  rw [StateT.run_bind]
  rcases (runGit ⟨!isNarrow, [refspec]⟩).run s with ⟨error | output, t⟩
  · show StateT.run (m := Id) (if isMissingRemoteRef error = true then _ else _) t =
      (if isMissingRemoteRef error = true then _ else _, t)
    by_cases herror : isMissingRemoteRef error = true
    · simp only [if_pos herror]
      rfl
    · simp only [if_neg herror]
      rfl
  · rfl

theorem fetchRefspecs_pair (base branch : Text) (s : σ) :
    (fetchRefspecs runGit isNarrow base [base, branch]).run s =
      match (runGit ⟨!isNarrow, [base, branch]⟩).run s with
      | (.ok _, t) => (.ok false, t)
      | (.error error, t) =>
        if isMissingRemoteRef error then
          match (runGit ⟨!isNarrow, [base]⟩).run t with
          | (.ok _, u) => (.ok true, u)
          | (.error baseErr, u) => (.error (trim baseErr), u)
        else (.error (trim error), t) := by
  show (runGit ⟨!isNarrow, [base, branch]⟩ >>= _).run s = _
  rw [StateT.run_bind]
  rcases (runGit ⟨!isNarrow, [base, branch]⟩).run s with ⟨error | output, t⟩
  · show StateT.run (if isMissingRemoteRef error = true then runGit ⟨!isNarrow, [base]⟩ >>= _ else _) t =
      if isMissingRemoteRef error = true then _ else _
    split
    · rw [StateT.run_bind]
      rcases (runGit ⟨!isNarrow, [base]⟩).run t with ⟨baseErr | output, u⟩ <;> rfl
    · rfl
  · rfl

namespace FetchCaches

variable (caches : FetchCaches) {cacheKey : Text} (branchName baseBranch : Text) (fetchMode : FetchMode)
  (now : ℤ)

/-- A call on a local key. -/
theorem refreshRefsIfNeeded_local {repoKey : Text}
    (hkey : repoKeyFromLocalCacheKey cacheKey = some repoKey) (s : σ) :
    (caches.refreshRefsIfNeeded cacheKey runGit branchName baseBranch fetchMode now).run s =
      let previous := caches.branches.lookup cacheKey
      let needed := neededRefspecs branchName baseBranch
      match refspecsToFetch (caches.repos.lookup repoKey) needed fetchMode now with
      | none => ((.cached previous (caches.repos.lookup repoKey), caches), s)
      | some refspecs =>
        let isNarrow := decide (refspecs.length < needed.length)
        match (fetchRefspecs runGit isNarrow (refspecFor baseBranch) refspecs).run s with
        | (.error error, t) =>
          ((⟨⟨.failed, previous.map FetchCacheEntry.fetchedAt, some error⟩, false⟩, caches), t)
        | (.ok missing, t) =>
          ((⟨⟨.fresh, some now, none⟩, missing⟩,
            ⟨caches.branches.insert cacheKey ⟨now, missing⟩,
              caches.repos.insert repoKey
                (.refreshed (caches.repos.lookup repoKey) now isNarrow needed refspecs)⟩), t) := by
  simp only [refreshRefsIfNeeded, hkey, Option.isSome_some, if_true, Option.bind_some, Bool.true_and]
  rcases refspecsToFetch (caches.repos.lookup repoKey) (neededRefspecs branchName baseBranch) fetchMode
    now with _ | refspecs
  · rfl
  · simp only [Option.isSome_some, Bool.not_true, Bool.false_eq_true, if_false, Option.getD_some,
      StateT.run_bind]
    rcases (fetchRefspecs runGit _ (refspecFor baseBranch) refspecs).run s with ⟨error | missing, t⟩
    · rfl
    · rfl

/-- A call on a key that is not local. -/
theorem refreshRefsIfNeeded_remote (hkey : repoKeyFromLocalCacheKey cacheKey = none) (s : σ) :
    (caches.refreshRefsIfNeeded cacheKey runGit branchName baseBranch fetchMode now).run s =
      let previous := caches.branches.lookup cacheKey
      if branchNeedsFetch previous fetchMode now then
        match (fetchRefspecs runGit false (refspecFor baseBranch)
          (neededRefspecs branchName baseBranch)).run s with
        | (.error error, t) =>
          ((⟨⟨.failed, previous.map FetchCacheEntry.fetchedAt, some error⟩, false⟩, caches), t)
        | (.ok missing, t) =>
          ((⟨⟨.fresh, some now, none⟩, missing⟩,
            ⟨caches.branches.insert cacheKey ⟨now, missing⟩, caches.repos⟩), t)
      else ((.cached previous none, caches), s) := by
  have hto : (refspecsToFetch none (neededRefspecs branchName baseBranch) fetchMode now).getD
      (neededRefspecs branchName baseBranch) = neededRefspecs branchName baseBranch := by
    cases fetchMode <;> rfl
  simp only [refreshRefsIfNeeded, hkey, Option.isSome_none, Bool.false_eq_true, if_false,
    Option.bind_none, Bool.false_and, hto]
  rcases branchNeedsFetch (caches.branches.lookup cacheKey) fetchMode now with _ | _
  · rfl
  · simp only [Bool.not_true, Bool.false_eq_true, if_false, if_true, StateT.run_bind]
    rcases (fetchRefspecs runGit false (refspecFor baseBranch)
      (neededRefspecs branchName baseBranch)).run s with ⟨error | missing, t⟩
    · rfl
    · rfl

end FetchCaches

end Running

/-! ## The key of a repository -/

theorem localRepoKey_injective : Function.Injective localRepoKey :=
  fun _ _ h => List.append_cancel_left h

/-- The key of a local branch leads to the key of its repository when the names have no colon. -/
theorem repoKeyFromLocalCacheKey_local {branchName baseBranch : Text} (hbranch : ':' ∉ branchName)
    (hbase : ':' ∉ baseBranch) (repo : Text) :
    repoKeyFromLocalCacheKey (localGitStateCacheKey repo branchName baseBranch) =
      some (localRepoKey repo) := by
  have hdrop : ∀ scheme rest : Text, List.dropPrefix? (scheme ++ rest) scheme = some rest :=
    fun scheme rest => List.dropPrefix?_append_of_beq rest (beq_self_eq_true scheme)
  simp only [repoKeyFromLocalCacheKey, localGitStateCacheKey, hdrop, Option.bind_eq_bind,
    Option.bind_some, rsplitOnce_append hbase (repo ++ ':' :: branchName),
    rsplitOnce_append hbranch repo]
  rfl

end Builderbot.Git
