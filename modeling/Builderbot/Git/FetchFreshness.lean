import Builderbot.Git.FetchCache
import Builderbot.Lib.Run

/-!
# Freshness of fetched refs

A repository has one timestamp for all the refspecs that it remembers. A full fetch sets both; a narrow
fetch adds a refspec, and the background sync adds none, but both set the timestamp. So a refspec can be
remembered for longer than `FETCH_TTL_MS`, and a call that finds it in the cache reports refs as fresh
that have not been fetched in this time. `ttl_fresh_sound` says what is missing: that the last full fetch
is recent too.
-/

namespace Builderbot.Git

open Lib.Text

/-! ## Runs -/

/-- A call that may fetch: its repository, its time, its fetches with their results, and whether it ended
with the status `Fresh`. -/
structure FetchRecord where
  repo : Text
  time : ℤ
  calls : List (FetchCommand × Except Text Text)
  fresh : Bool

/-- The caches with the time of the last call and the record of all calls. -/
structure FetchWorld where
  caches : FetchCaches := {}
  clock : ℤ := 0
  log : List FetchRecord := []

inductive FetchOp where
  /-- `refresh_refs_if_needed` on the key of a local branch; `git` gives the results of its fetches. -/
  | refresh (repo branchName baseBranch : Text) (fetchMode : FetchMode) (now : ℤ)
      (git : FetchCommand → Except Text Text)
  /-- `update_repo_fetch_cache` after `git fetch origin defaultBranch` has succeeded. -/
  | updateRepoFetchCache (repo defaultBranch : Text) (now : ℤ)

/-- A fetch whose result is recorded. -/
def recordFetch (git : FetchCommand → Except Text Text) (command : FetchCommand) :
    StateM (List (FetchCommand × Except Text Text)) (Except Text Text) := do
  modify (· ++ [(command, git command)])
  return git command

namespace FetchWorld

variable (w : FetchWorld)

/-- A call of `refresh_refs_if_needed` on a local key. -/
def refresh (repo branchName baseBranch : Text) (fetchMode : FetchMode) (now : ℤ)
    (git : FetchCommand → Except Text Text) : RefreshOutcome × FetchWorld :=
  let cacheKey := localGitStateCacheKey repo branchName baseBranch
  let result :=
    (w.caches.refreshRefsIfNeeded cacheKey (recordFetch git) branchName baseBranch fetchMode now).run []
  (result.1.1,
    { caches := result.1.2
      clock := now
      log := w.log ++ [⟨repo, now, result.2, result.1.1.fetch.status = .fresh⟩] })

/-- One call. The clock does not go back. -/
def step : FetchOp → Option FetchWorld
  | .refresh repo branchName baseBranch fetchMode now git =>
    if w.clock ≤ now then some (w.refresh repo branchName baseBranch fetchMode now git).2 else none
  | .updateRepoFetchCache repo defaultBranch now =>
    if w.clock ≤ now then
      some {
        caches := w.caches.updateRepoFetchCache repo now
        clock := now
        log := w.log ++ [⟨repo, now, [(⟨false, [refspecFor defaultBranch]⟩, .ok [])], true⟩] }
    else none

end FetchWorld

/-! ## Soundness -/

/-- The ref on the side of the remote. -/
def refspecSource (refspec : Text) : Text := (refspec.drop 1).takeWhile (· ≠ ':')

/-- The error says that the remote does not have the ref. -/
def namesMissingRef (error refspec : Text) : Bool :=
  (lines error).any fun line =>
    ("couldn't find remote ref ".toList ++ refspecSource refspec).isSuffixOf line

/-- The refspec was part of the fetch, which succeeded or reported it missing. -/
def coversRefspec (call : FetchCommand × Except Text Text) (refspec : Text) : Bool :=
  call.1.refspecs.contains refspec &&
    match call.2 with
    | .ok _ => true
    | .error error =>
      isMissingRemoteRef error && (call.1.refspecs = [refspec] || namesMissingRef error refspec)

/-- A fetch for the repository, at most `FETCH_TTL_MS` ago, covered the refspec. -/
def RecentlyFetched (log : List FetchRecord) (repo : Text) (now : ℤ) (refspec : Text) : Prop :=
  ∃ r ∈ log, r.repo = repo ∧ (∃ call ∈ r.calls, coversRefspec call refspec = true) ∧
    r.time ≤ now ∧ now - r.time ≤ fetchTtlMs

instance (log : List FetchRecord) (repo : Text) (now : ℤ) (refspec : Text) :
    Decidable (RecentlyFetched log repo now refspec) :=
  inferInstanceAs (Decidable (∃ r ∈ log, r.repo = repo ∧
    (∃ call ∈ r.calls, coversRefspec call refspec = true) ∧ r.time ≤ now ∧ now - r.time ≤ fetchTtlMs))

/-- When a call in the mode `Ttl` reports `Fresh`, every refspec it needs was recently fetched. -/
def FreshIsSound (w : FetchWorld) : FetchOp → Prop
  | .refresh repo branchName baseBranch .ttl now git =>
    let result := w.refresh repo branchName baseBranch .ttl now git
    w.clock ≤ now → result.1.fetch.status = .fresh →
      ∀ refspec ∈ neededRefspecs branchName baseBranch,
        RecentlyFetched result.2.log repo now refspec
  | _ => True

/-! ## The condition -/

/-- A full fetch: it sets what the repository remembers, and the timestamp with it. -/
def FetchRecord.full (r : FetchRecord) : Bool := r.fresh && r.calls.any fun call => call.1.prune

/-- If the repository is still fresh by its timestamp and a needed refspec is taken from what it
remembers, then the last full fetch is recent too. -/
def FullFetchRecent (w : FetchWorld) (repo : Text) (needed : List Text) (now : ℤ) : Prop :=
  ∀ entry ∈ w.caches.repos.lookup (localRepoKey repo), now - entry.fetchedAt ≤ fetchTtlMs →
    (∃ refspec ∈ needed, refspec ∈ entry.fetchedRefspecs) →
      ∃ r ∈ w.log, r.repo = repo ∧ r.full = true ∧ now - r.time ≤ fetchTtlMs

instance (w : FetchWorld) (repo : Text) (needed : List Text) (now : ℤ) :
    Decidable (FullFetchRecent w repo needed now) :=
  inferInstanceAs (Decidable (∀ entry ∈ w.caches.repos.lookup (localRepoKey repo),
    now - entry.fetchedAt ≤ fetchTtlMs → (∃ refspec ∈ needed, refspec ∈ entry.fetchedRefspecs) →
      ∃ r ∈ w.log, r.repo = repo ∧ r.full = true ∧ now - r.time ≤ fetchTtlMs))

/-- If a fetch of base and branch finds a ref missing and a fetch of the base alone succeeds, then it is
the ref of the branch that was missing. -/
def MissingIsBranch (git : FetchCommand → Except Text Text) (branchName baseBranch : Text) : Prop :=
  ∀ error output, git ⟨true, [refspecFor baseBranch, refspecFor branchName]⟩ = .error error →
    isMissingRemoteRef error = true → git ⟨true, [refspecFor baseBranch]⟩ = .ok output →
      namesMissingRef error (refspecFor branchName) = true

/-- What a call has to meet. -/
def FreshnessKept (w : FetchWorld) : FetchOp → Prop
  | .refresh repo branchName baseBranch fetchMode now git =>
    ':' ∉ branchName ∧ ':' ∉ baseBranch ∧ MissingIsBranch git branchName baseBranch ∧
      (fetchMode = .ttl → FullFetchRecent w repo (neededRefspecs branchName baseBranch) now)
  | .updateRepoFetchCache .. => True

/-! ## The fetches of a call -/

section Fetches

variable {git : FetchCommand → Except Text Text} {isNarrow missing : Bool} {base branch refspec : Text}
  {calls : List (FetchCommand × Except Text Text)}

theorem recordFetch_run (command : FetchCommand) (calls : List (FetchCommand × Except Text Text)) :
    (recordFetch git command).run calls = (git command, calls ++ [(command, git command)]) := rfl

theorem coversRefspec_of_ok {command : FetchCommand} {output : Text}
    (h : refspec ∈ command.refspecs) : coversRefspec (command, .ok output) refspec = true := by
  simp [coversRefspec, h]

/-- A successful fetch of one refspec. -/
theorem single_covers
    (h : (fetchRefspecs (recordFetch git) isNarrow base [refspec]).run [] = (.ok missing, calls)) :
    ∃ call, calls = [call] ∧ call.1.prune = !isNarrow ∧ coversRefspec call refspec = true := by
  rw [fetchRefspecs_single, recordFetch_run] at h
  rcases hgit : git ⟨!isNarrow, [refspec]⟩ with error | output
  · rw [hgit, Prod.mk.injEq] at h
    refine ⟨_, h.2.symm, rfl, ?_⟩
    by_cases herror : isMissingRemoteRef error = true
    · simp [coversRefspec, herror]
    · rw [if_neg herror] at h
      cases h.1
  · rw [hgit, Prod.mk.injEq] at h
    exact ⟨_, h.2.symm, rfl, coversRefspec_of_ok (by simp)⟩

/-- A successful fetch of base and branch. -/
theorem pair_covers
    (hmissing : ∀ error output, git ⟨true, [base, branch]⟩ = .error error →
      isMissingRemoteRef error = true → git ⟨true, [base]⟩ = .ok output →
        namesMissingRef error branch = true)
    (h : (fetchRefspecs (recordFetch git) false base [base, branch]).run [] = (.ok missing, calls)) :
    (∃ call ∈ calls, call.1.prune = true) ∧
      ∀ refspec ∈ [base, branch], ∃ call ∈ calls, coversRefspec call refspec = true := by
  rw [fetchRefspecs_pair, recordFetch_run] at h
  rcases hgit : git ⟨!false, [base, branch]⟩ with error | output
  · simp only [hgit, recordFetch_run] at h
    by_cases herror : isMissingRemoteRef error = true
    · rw [if_pos herror] at h
      rcases hbase : git ⟨!false, [base]⟩ with baseErr | output
      · rw [hbase] at h
        cases h
      · rw [hbase, Prod.mk.injEq] at h
        obtain ⟨-, rfl⟩ := h
        refine ⟨⟨_, List.mem_cons_self, rfl⟩, fun refspec hrs => ?_⟩
        rcases List.mem_pair.mp hrs with rfl | rfl
        · exact ⟨_, List.mem_cons_of_mem _ List.mem_cons_self, coversRefspec_of_ok (by simp)⟩
        · refine ⟨_, List.mem_cons_self, ?_⟩
          have hnames := hmissing error output hgit herror hbase
          simp [coversRefspec, herror, hnames]
    · rw [if_neg herror] at h
      cases h
  · rw [hgit, Prod.mk.injEq] at h
    obtain ⟨-, rfl⟩ := h
    exact ⟨⟨_, List.mem_cons_self, rfl⟩,
      fun refspec hrs => ⟨_, List.mem_cons_self, coversRefspec_of_ok hrs⟩⟩

end Fetches

/-! ## What is fetched -/

section ToFetch

variable {repoEntry : Option RepoFetchEntry} {needed refspecs : List Text} {fetchMode : FetchMode}
  {now : ℤ}

theorem neededRefspecs_cases (branchName baseBranch : Text) :
    neededRefspecs branchName baseBranch = [refspecFor baseBranch] ∨
      neededRefspecs branchName baseBranch = [refspecFor baseBranch, refspecFor branchName] := by
  rw [neededRefspecs]
  split
  · exact .inr rfl
  · exact .inl rfl

/-- Nothing is fetched because the repository is fresh and remembers everything. -/
theorem refspecsToFetch_ttl_none (h : refspecsToFetch repoEntry needed .ttl now = none) :
    ∃ entry, repoEntry = some entry ∧ now - entry.fetchedAt ≤ fetchTtlMs ∧
      ∀ refspec ∈ needed, refspec ∈ entry.fetchedRefspecs := by
  rcases repoEntry with _ | entry
  · cases h
  · simp only [refspecsToFetch] at h
    split at h
    · rename_i hfresh
      split at h
      · rename_i hnil
        refine ⟨entry, rfl, hfresh, fun refspec hrs => ?_⟩
        simpa using List.filter_eq_nil_iff.mp hnil refspec hrs
      · cases h
    · cases h

/-- Everything is fetched, or the repository is fresh and what it does not remember is fetched. -/
theorem refspecsToFetch_some (h : refspecsToFetch repoEntry needed fetchMode now = some refspecs) :
    refspecs = needed ∨
      (fetchMode = .ttl ∧ ∃ entry, repoEntry = some entry ∧ now - entry.fetchedAt ≤ fetchTtlMs ∧
        refspecs ≠ [] ∧ refspecs.length < needed.length ∧
          ∀ refspec ∈ needed, refspec ∈ refspecs ∨ refspec ∈ entry.fetchedRefspecs) := by
  cases fetchMode with
  | never => cases h
  | force => exact .inl (Option.some.inj h).symm
  | ttl =>
    rcases repoEntry with _ | entry
    · exact .inl (Option.some.inj h).symm
    · simp only [refspecsToFetch] at h
      split at h
      · rename_i hfresh
        split at h
        · cases h
        · rename_i hne
          obtain rfl := Option.some.inj h
          rcases Nat.lt_or_eq_of_le (List.length_filter_le _ needed) with hlt | heq
          · refine .inr ⟨rfl, entry, rfl, hfresh, hne, hlt, fun refspec hrs => ?_⟩
            rw [List.mem_filter]
            by_cases hin : refspec ∈ entry.fetchedRefspecs
            · exact .inr hin
            · exact .inl ⟨hrs, by simpa using hin⟩
          · exact .inl (List.filter_eq_self.mpr (List.length_filter_eq_length_iff.mp heq))
      · exact .inl (Option.some.inj h).symm

end ToFetch

/-! ## One call -/

section Refresh

variable {w : FetchWorld} {repo branchName baseBranch : Text} {fetchMode : FetchMode} {now : ℤ}
  {git : FetchCommand → Except Text Text}

variable (w repo fetchMode now) in
/-- What a call on a local key can do: nothing is fetched, a fetch fails, or everything that was not
taken from the cache is covered by its fetches. In the last case the repository remembers what is needed
and, after a narrow fetch, also what it remembered before. -/
theorem refresh_cases (hbranch : ':' ∉ branchName) (hbase : ':' ∉ baseBranch)
    (hmissing : MissingIsBranch git branchName baseBranch) :
    let needed := neededRefspecs branchName baseBranch
    let repoEntry := w.caches.repos.lookup (localRepoKey repo)
    let result := w.refresh repo branchName baseBranch fetchMode now git
    (refspecsToFetch repoEntry needed fetchMode now = none ∧ result.2.caches = w.caches ∧
        ∃ fresh, result.2.log = w.log ++ [⟨repo, now, [], fresh⟩]) ∨
      (result.1.fetch.status ≠ .fresh ∧ result.2.caches = w.caches ∧
        ∃ calls, result.2.log = w.log ++ [⟨repo, now, calls, false⟩]) ∨
      ∃ refspecs calls isNarrow, refspecsToFetch repoEntry needed fetchMode now = some refspecs ∧
        result.2.log = w.log ++ [⟨repo, now, calls, true⟩] ∧
        result.2.caches.repos = w.caches.repos.insert (localRepoKey repo)
          (.refreshed repoEntry now isNarrow needed refspecs) ∧
        (∀ refspec ∈ refspecs, ∃ call ∈ calls, coversRefspec call refspec = true) ∧
        (if isNarrow then ∀ call ∈ calls, call.1.prune = false else refspecs = needed) := by
  intro needed repoEntry result
  have hrun := FetchCaches.refreshRefsIfNeeded_local (recordFetch git) w.caches branchName baseBranch
    fetchMode now (repoKeyFromLocalCacheKey_local hbranch hbase repo) []
  -- by what the cache lets the call ask for, then by how the fetches end
  rcases hto : refspecsToFetch repoEntry needed fetchMode now with _ | refspecs
  · simp only [repoEntry, needed] at hto
    simp only [hto] at hrun
    refine .inl ⟨rfl, ?_, decide (result.1.fetch.status = .fresh), ?_⟩
    · simp only [result, FetchWorld.refresh, hrun]
    · simp only [result, FetchWorld.refresh, hrun]
  have hto' := hto
  simp only [repoEntry, needed] at hto'
  simp only [hto'] at hrun
  rcases hfetch : (fetchRefspecs (recordFetch git)
    (decide (refspecs.length < (neededRefspecs branchName baseBranch).length))
    (refspecFor baseBranch) refspecs).run [] with ⟨error | missing, calls⟩
  · simp only [hfetch] at hrun
    refine .inr (.inl ⟨?_, ?_, calls, ?_⟩)
    · simp only [result, FetchWorld.refresh, hrun]
      decide
    · simp only [result, FetchWorld.refresh, hrun]
    · simp only [result, FetchWorld.refresh, hrun]
      rfl
  · simp only [hfetch] at hrun
    refine .inr (.inr ⟨refspecs, calls,
      decide (refspecs.length < (neededRefspecs branchName baseBranch).length), rfl, ?_, ?_, ?_⟩)
    · simp only [result, FetchWorld.refresh, hrun]
      rfl
    · simp only [result, FetchWorld.refresh, hrun]
      rfl
    rcases refspecsToFetch_some hto with rfl | ⟨-, entry, -, -, hne, hlt, -⟩
    · -- everything is fetched
      rw [decide_eq_false (lt_irrefl _)] at hfetch ⊢
      refine ⟨?_, rfl⟩
      rcases neededRefspecs_cases branchName baseBranch with hneeded | hneeded
      · simp only [needed, hneeded] at hfetch ⊢
        obtain ⟨call, rfl, -, hcovers⟩ := single_covers hfetch
        intro refspec hrs
        obtain rfl := List.mem_singleton.mp hrs
        exact ⟨call, List.mem_cons_self, hcovers⟩
      · simp only [needed, hneeded] at hfetch ⊢
        exact (pair_covers hmissing hfetch).2
    · -- one of two refspecs is fetched
      have hlen : needed.length ≤ 2 := by
        rcases neededRefspecs_cases branchName baseBranch with hneeded | hneeded <;>
          simp [needed, hneeded]
      obtain ⟨refspec, rfl⟩ : ∃ refspec, refspecs = [refspec] := by
        refine List.length_eq_one_iff.mp ?_
        have := List.length_pos_iff.mpr hne
        omega
      rw [decide_eq_true (show [refspec].length < (neededRefspecs branchName baseBranch).length from hlt)]
        at hfetch ⊢
      obtain ⟨call, rfl, hprune, hcovers⟩ := single_covers hfetch
      refine ⟨fun refspec' hrs => ?_, ?_⟩
      · obtain rfl := List.mem_singleton.mp hrs
        exact ⟨call, List.mem_cons_self, hcovers⟩
      · rw [if_pos rfl]
        intro call' hcall
        rw [List.mem_singleton.mp hcall]
        exact hprune

end Refresh

variable {now : ℤ} {repo : Text}

theorem RecentlyFetched.mono {log : List FetchRecord} {refspec : Text}
    (h : RecentlyFetched log repo now refspec) (log' : List FetchRecord) :
    RecentlyFetched (log ++ log') repo now refspec := by
  obtain ⟨r, hr, hfetched⟩ := h
  exact ⟨r, List.mem_append_left _ hr, hfetched⟩

/-! ## The invariant -/

namespace FetchWorld

/-- Some fetch for the repository, at the time or later, covered the refspec. -/
def CoveredSince (log : List FetchRecord) (repo : Text) (time : ℤ) (refspec : Text) : Prop :=
  ∃ r ∈ log, r.repo = repo ∧ (∃ call ∈ r.calls, coversRefspec call refspec = true) ∧ time ≤ r.time

/-- What a repository remembers was fetched with the last full fetch or later. -/
structure Inv (w : FetchWorld) : Prop where
  past : ∀ r ∈ w.log, r.time ≤ w.clock
  remembered : ∀ repo entry, w.caches.repos.lookup (localRepoKey repo) = some entry →
    ∀ refspec ∈ entry.fetchedRefspecs, ∀ full ∈ w.log, full.repo = repo → full.full = true →
      CoveredSince w.log repo full.time refspec

namespace Inv

variable {w w' : FetchWorld} {r : FetchRecord}

theorem new : Inv {} :=
  { past := fun r h => by cases h
    remembered := fun repo entry h => by cases h }

/-- Another call. What is remembered afterwards is covered by the call, or was remembered before and the
call is no full fetch for this repository. -/
theorem record (h : w.Inv) (hlog : w'.log = w.log ++ [r]) (hclock : w'.clock = r.time)
    (hnow : w.clock ≤ r.time)
    (hremembered : ∀ repo entry', w'.caches.repos.lookup (localRepoKey repo) = some entry' →
      ∀ refspec ∈ entry'.fetchedRefspecs,
        (r.repo = repo ∧ ∃ call ∈ r.calls, coversRefspec call refspec = true) ∨
          ((r.repo = repo → r.full = false) ∧
            ∃ entry, w.caches.repos.lookup (localRepoKey repo) = some entry ∧
              refspec ∈ entry.fetchedRefspecs)) : w'.Inv := by
  have hpast : ∀ r' ∈ w'.log, r'.time ≤ r.time := by
    intro r' hr'
    rw [hlog, List.mem_append, List.mem_singleton] at hr'
    rcases hr' with hr' | rfl
    · exact Int.le_trans (h.past r' hr') hnow
    · exact Int.le_refl _
  refine ⟨fun r' hr' => hclock ▸ hpast r' hr', fun repo entry' hlook refspec hrs full hfull hrepo hf => ?_⟩
  rcases hremembered repo entry' hlook refspec hrs with ⟨hr, hcovers⟩ | ⟨hnotfull, entry, hentry, hmem⟩
  · have hmem : r ∈ w'.log := by simp [hlog]
    exact ⟨r, hmem, hr, hcovers, hpast full hfull⟩
  · rw [hlog, List.mem_append, List.mem_singleton] at hfull
    rcases hfull with hfull | rfl
    · obtain ⟨r', hr', hcovers⟩ := h.remembered repo entry hentry refspec hmem full hfull hrepo hf
      exact ⟨r', hlog ▸ List.mem_append_left _ hr', hcovers⟩
    · rw [hnotfull hrepo] at hf
      cases hf

/-- A call that leaves the caches as they are and is no full fetch. -/
theorem record_same (h : w.Inv) (hlog : w'.log = w.log ++ [r]) (hclock : w'.clock = r.time)
    (hnow : w.clock ≤ r.time) (hcaches : w'.caches = w.caches) (hfull : r.full = false) : w'.Inv := by
  refine h.record hlog hclock hnow fun repo entry hlook refspec hrs => .inr ⟨fun _ => hfull, entry, ?_, hrs⟩
  rwa [hcaches] at hlook

theorem refresh (h : w.Inv) {branchName baseBranch : Text} {fetchMode : FetchMode}
    {git : FetchCommand → Except Text Text} (hnow : w.clock ≤ now) (hbranch : ':' ∉ branchName)
    (hbase : ':' ∉ baseBranch) (hmissing : MissingIsBranch git branchName baseBranch) :
    (w.refresh repo branchName baseBranch fetchMode now git).2.Inv := by
  rcases refresh_cases w repo fetchMode now hbranch hbase hmissing
    with ⟨-, hcaches, fresh, hlog⟩ | ⟨-, hcaches, calls, hlog⟩ |
      ⟨refspecs, calls, isNarrow, -, hlog, hrepos, hcovers, hnarrow⟩
  · exact h.record_same hlog rfl hnow hcaches (by simp [FetchRecord.full])
  · exact h.record_same hlog rfl hnow hcaches (by simp [FetchRecord.full])
  · refine h.record hlog rfl hnow fun repo' entry hlook refspec hrs => ?_
    rw [hrepos] at hlook
    by_cases heq : repo' = repo
    · subst heq
      rw [AList.lookup_insert] at hlook
      obtain rfl := Option.some.inj hlook
      simp only [RepoFetchEntry.refreshed] at hrs
      cases isNarrow with
      | false =>
        rw [if_neg (by decide)] at hrs hnarrow
        exact .inl ⟨rfl, hcovers refspec (hnarrow ▸ hrs)⟩
      | true =>
        rw [if_pos rfl] at hrs hnarrow
        rcases List.mem_append.mp hrs with hrs | hrs
        · -- what was remembered before stays
          rcases hentry : w.caches.repos.lookup (localRepoKey repo') with _ | entry
          · rw [hentry] at hrs
            cases hrs
          · rw [hentry] at hrs
            refine .inr ⟨fun _ => ?_, entry, rfl, hrs⟩
            simpa [FetchRecord.full] using hnarrow
        · exact .inl ⟨rfl, hcovers refspec hrs⟩
    · rw [AList.lookup_insert_ne fun hkey => heq (localRepoKey_injective hkey)] at hlook
      exact .inr ⟨fun hr => absurd hr.symm heq, entry, hlook, hrs⟩

theorem updateRepoFetchCache (h : w.Inv)
    {calls : List (FetchCommand × Except Text Text)} (hnow : w.clock ≤ now)
    (hcalls : ∀ call ∈ calls, call.1.prune = false) :
    Inv ⟨w.caches.updateRepoFetchCache repo now, now, w.log ++ [⟨repo, now, calls, true⟩]⟩ := by
  refine h.record rfl rfl hnow fun repo' entry hlook refspec hrs => .inr ⟨fun _ => ?_, ?_⟩
  · simpa [FetchRecord.full] using hcalls
  · simp only [FetchCaches.updateRepoFetchCache, Table.upsert] at hlook
    by_cases heq : repo' = repo
    · subst heq
      rw [AList.lookup_insert] at hlook
      obtain rfl := Option.some.inj hlook
      rcases hentry : w.caches.repos.lookup (localRepoKey repo') with _ | entry
      · rw [hentry] at hrs
        cases hrs
      · rw [hentry] at hrs
        exact ⟨entry, rfl, hrs⟩
    · rw [AList.lookup_insert_ne fun hkey => heq (localRepoKey_injective hkey)] at hlook
      exact ⟨entry, hlook, hrs⟩

theorem step (h : w.Inv) {op : FetchOp} (hkept : FreshnessKept w op) (hstep : w.step op = some w') :
    w'.Inv := by
  cases op with
  | refresh repo branchName baseBranch fetchMode now git =>
    simp only [FetchWorld.step] at hstep
    split at hstep
    · rename_i hnow
      obtain rfl := Option.some.inj hstep
      exact h.refresh hnow hkept.1 hkept.2.1 hkept.2.2.1
    · cases hstep
  | updateRepoFetchCache repo defaultBranch now =>
    simp only [FetchWorld.step] at hstep
    split at hstep
    · rename_i hnow
      obtain rfl := Option.some.inj hstep
      exact h.updateRepoFetchCache hnow (by simp)
    · cases hstep

/-- A refspec that the repository remembers was recently fetched. -/
theorem recentlyFetched (h : w.Inv) {needed : List Text} {entry : RepoFetchEntry}
    (hnow : w.clock ≤ now) (hfull : FullFetchRecent w repo needed now)
    (hentry : w.caches.repos.lookup (localRepoKey repo) = some entry)
    (hfresh : now - entry.fetchedAt ≤ fetchTtlMs) {refspec : Text} (hneeded : refspec ∈ needed)
    (hrs : refspec ∈ entry.fetchedRefspecs) : RecentlyFetched w.log repo now refspec := by
  obtain ⟨full, hmem, hrepo, hisfull, hrecent⟩ := hfull entry hentry hfresh ⟨refspec, hneeded, hrs⟩
  obtain ⟨r, hr, hrepo', hcovers, htime⟩ :=
    h.remembered repo entry hentry refspec hrs full hmem hrepo hisfull
  exact ⟨r, hr, hrepo', hcovers, Int.le_trans (h.past r hr) hnow, by omega⟩

/-- What a call in the mode `Ttl` reports. -/
theorem freshIsSound (h : w.Inv) {op : FetchOp} (hkept : FreshnessKept w op) :
    FreshIsSound w op := by
  cases op with
  | updateRepoFetchCache repo defaultBranch now => trivial
  | refresh repo branchName baseBranch fetchMode now git =>
    cases fetchMode with
    | force | never => trivial
    | ttl =>
      obtain ⟨hbranch, hbase, hmissing, hfull⟩ := hkept
      intro hnow hfresh refspec hneeded
      -- no fetch was needed, or it failed, or it has just covered what it was asked for
      rcases refresh_cases w repo .ttl now hbranch hbase
        hmissing with ⟨hto, -, fresh, hlog⟩ | ⟨hstatus, -⟩ |
          ⟨refspecs, calls, isNarrow, hto, hlog, -, hcovers, -⟩
      · obtain ⟨entry, hentry, hrecent, hall⟩ := refspecsToFetch_ttl_none hto
        have hfetched := h.recentlyFetched hnow (hfull rfl) hentry hrecent hneeded
          (hall refspec hneeded)
        exact hlog ▸ hfetched.mono _
      · exact absurd hfresh hstatus
      · have hcovered : refspec ∈ refspecs → RecentlyFetched
            (w.refresh repo branchName baseBranch .ttl now git).2.log repo now refspec := by
          intro hrs
          refine ⟨⟨repo, now, calls, true⟩, ?_, rfl, hcovers refspec hrs, Int.le_refl _, ?_⟩
          · rw [hlog]
            exact List.mem_append_right _ (List.mem_singleton.mpr rfl)
          · rw [Int.sub_self]
            decide
        -- a narrow fetch leaves out only what the entry has seen recently
        rcases refspecsToFetch_some hto with rfl | ⟨-, entry, hentry, hrecent, -, -, hall⟩
        · exact hcovered hneeded
        · rcases hall refspec hneeded with hrs | hrs
          · exact hcovered hrs
          · have hfetched := h.recentlyFetched hnow (hfull rfl) hentry hrecent hneeded hrs
            exact hlog ▸ hfetched.mono _

end Inv

end FetchWorld

/-- Freshness is sound in every run in which names have no colon, a ref that is reported missing in a
fetch of base and branch is the one of the branch, and a call that takes refspecs from a repository that
is fresh by its timestamp comes at most `FETCH_TTL_MS` after the last full fetch. -/
theorem ttl_fresh_sound (ops : List FetchOp) (h : Along FetchWorld.step FreshnessKept {} ops) :
    Along FetchWorld.step FreshIsSound {} ops :=
  h.of_invariant FetchWorld.Inv.new (fun _ _ _ hinv hkept hstep => hinv.step hkept hstep)
    fun _ _ hinv hkept => hinv.freshIsSound hkept

/-- A call in the mode `Ttl` for a branch with the base `m`, all of whose fetches succeed. -/
def ttlCall (branchName : Text) (now : ℤ) : FetchOp :=
  .refresh ['/', 'r'] branchName ['m'] .ttl now fun _ => .ok []

/-- A full fetch, and then a narrow one. -/
def narrowFetchInTime : List FetchOp := [ttlCall ['a'] 0, ttlCall ['b'] 20000]

theorem ttlCall_kept {w : FetchWorld} {branchName : Text} (hbranch : ':' ∉ branchName)
    (hfull : FullFetchRecent w ['/', 'r'] (neededRefspecs branchName ['m']) now) :
    FreshnessKept w (ttlCall branchName now) := by
  refine ⟨hbranch, by decide, fun error output h => ?_, fun _ => hfull⟩
  cases h

theorem narrowFetchInTime_sound :
    Along FetchWorld.step FreshnessKept {} narrowFetchInTime ∧
      Along FetchWorld.step FreshIsSound {} narrowFetchInTime := by
  have h : Along FetchWorld.step FreshnessKept {} narrowFetchInTime := by
    refine ⟨ttlCall_kept (by decide) (by decide), fun t ht => ⟨?_, fun _ _ => trivial⟩⟩
    obtain rfl := Option.some.inj ht
    exact ttlCall_kept (by decide) (by decide)
  exact ⟨h, ttl_fresh_sound _ h⟩

/-- The narrow fetch at 20 s keeps the refspecs of 0 s alive: the call at 45 s fetches nothing and
reports `Fresh`. -/
theorem narrowFetch_extends_freshness :
    ∃ w, run FetchWorld.step {} narrowFetchInTime = some w ∧
      ¬ FreshIsSound w (ttlCall ['a'] 45000) := by
  refine ⟨_, rfl, fun h => ?_⟩
  have hrecent := h (by decide) (by decide) (refspecFor ['a']) (by decide)
  exact absurd hrecent (by decide)

end Builderbot.Git
