import Builderbot.Git.FetchFreshness

/-!
# When the upstream is known to be missing

`refresh_refs_if_needed` of `apps/staged/src-tauri/src/git/state.rs` also infers whether the branch of a call is missing on
the remote: from the failure of the fetch of base and branch after which the base alone can be fetched, or from the
failure of a fetch of one refspec. It does not look which refspec that one is, and a call whose fetches fail leaves the
flag of an earlier one in place.

`flags_sound` says in which runs the flag is right all the same.
-/

namespace Builderbot.Git

open Lib.Text

/-! ## Runs -/

/-- The remote during a call: which refspecs it has, and the errors for missing ones. -/
structure Remote where
  present : Text → Bool
  error : FetchCommand → Text
  missing : ∀ command, isMissingRemoteRef (error command) = true

/-- A fetch fails if one of its refspecs is absent, and only then. -/
def Remote.git (remote : Remote) (command : FetchCommand) : Except Text Text :=
  if command.refspecs.all remote.present then .ok [] else .error (remote.error command)

/-- A call of `refresh_refs_if_needed`. -/
structure RefreshCall where
  cacheKey : Text
  branchName : Text
  baseBranch : Text
  fetchMode : FetchMode
  now : ℤ
  remote : Remote

namespace RefreshCall

variable (c : RefreshCall)

def base : Text := refspecFor c.baseBranch
def branch : Text := refspecFor c.branchName
def needed : List Text := neededRefspecs c.branchName c.baseBranch

end RefreshCall

/-- A fetch that was made under a cache key: the refspec of the branch it was made for, and the remote at that time. -/
structure FetchNote where
  branch : Text
  remote : Remote

/-- The caches, and the most recent fetch under each cache key; the source does not keep the latter. -/
structure MissingWorld where
  caches : FetchCaches := {}
  lastFetch : Table Text FetchNote := ∅

namespace MissingWorld

variable (w : MissingWorld) (c : RefreshCall)

/-- A call, with its outcome and the fetches it makes. -/
def refresh : RefreshOutcome × List FetchCommand × MissingWorld :=
  let result := (w.caches.refreshRefsIfNeeded c.cacheKey (recordFetch c.remote.git) c.branchName c.baseBranch c.fetchMode
    c.now).run []
  let commands := result.2.map Prod.fst
  (result.1.1, commands,
    { caches := result.1.2
      lastFetch := if commands = [] then w.lastFetch else w.lastFetch.insert c.cacheKey ⟨c.branch, c.remote⟩ })

def step (c : RefreshCall) : Option MissingWorld := some (w.refresh c).2.2

/-- The flag that is stored under a key. -/
def flag (key : Text) : Bool := ((w.caches.branches.lookup key).map FetchCacheEntry.upstreamKnownMissing).getD false

/-- The refspecs that a call fetches first, or `none` when it fetches nothing. -/
def asked : Option (List Text) :=
  match repoKeyFromLocalCacheKey c.cacheKey with
  | some key => refspecsToFetch (w.caches.repos.lookup key) c.needed c.fetchMode c.now
  | none => if branchNeedsFetch (w.caches.branches.lookup c.cacheKey) c.fetchMode c.now then some c.needed else none

/-- An upstream that is known to be missing was missing at the most recent fetch under the key, and only a fetch that asks for
the branch resets the flag. -/
def FlagIsSound : Prop :=
  ((w.refresh c).1.upstreamKnownMissing = true → ∃ note, (w.refresh c).2.2.lastFetch.lookup c.cacheKey = some note ∧
    note.remote.present c.branch = false) ∧
  (w.flag c.cacheKey = true → (w.refresh c).2.2.flag c.cacheKey = false →
    ∃ command ∈ (w.refresh c).2.1, c.branch ∈ command.refspecs)

/-- What a call has to meet. -/
structure FlagKept : Prop where
  /-- A flag that is read without a fetch was stored for the same branch. -/
  same_branch : w.asked c = none → w.flag c.cacheKey = true → ∀ note, w.lastFetch.lookup c.cacheKey = some note →
    note.branch = c.branch
  /-- The base is not fetched alone for another branch, unless it is there and no flag is set, or it is missing and the
  branch as well. -/
  base_alone : w.asked c = some [c.base] → c.branch ≠ c.base →
    if c.remote.present c.base then w.flag c.cacheKey = false else c.remote.present c.branch = false
  /-- When a flag is set, no fetch of base and branch finds the base missing and the branch there. -/
  base_missing : w.asked c = some [c.base, c.branch] → c.remote.present c.base = false → w.flag c.cacheKey = true →
    c.remote.present c.branch = false

end MissingWorld

/-! ## The fetches -/

variable {command : FetchCommand}

section Fetches

variable {remote : Remote} {isNarrow : Bool} {base branch refspec : Text}

theorem Remote.git_of_present (h : command.refspecs.all remote.present = true) :
    remote.git command = .ok [] := if_pos h

theorem Remote.git_of_absent (h : command.refspecs.all remote.present = false) :
    remote.git command = .error (remote.error command) := if_neg (Bool.eq_false_iff.mp h)

/-- A fetch of one refspec does not fail: the refspec is there, or the upstream is taken to be missing. -/
theorem fetch_single : (fetchRefspecs (recordFetch remote.git) isNarrow base [refspec]).run [] =
    (.ok !remote.present refspec, [(⟨!isNarrow, [refspec]⟩, remote.git ⟨!isNarrow, [refspec]⟩)]) := by
  rw [fetchRefspecs_single, recordFetch_run]
  cases hpresent : remote.present refspec with
  | true => rw [Remote.git_of_present (by simp [hpresent])]; rfl
  | false =>
    rw [Remote.git_of_absent (by simp [hpresent])]
    simp only [remote.missing, if_true]
    rfl

/-- A fetch of base and branch fails when the base is missing; otherwise it says whether the branch is. -/
theorem fetch_pair : ∃ calls, (∃ rest, calls.map Prod.fst = ⟨!isNarrow, [base, branch]⟩ :: rest) ∧
    ((remote.present base = true ∧
      (fetchRefspecs (recordFetch remote.git) isNarrow base [base, branch]).run [] = (.ok !remote.present branch, calls)) ∨
    (remote.present base = false ∧ ∃ error,
      (fetchRefspecs (recordFetch remote.git) isNarrow base [base, branch]).run [] = (.error error, calls))) := by
  rw [fetchRefspecs_pair, recordFetch_run]
  cases hbase : remote.present base with
  | true =>
    cases hbranch : remote.present branch with
    | true =>
      rw [Remote.git_of_present (by simp [hbase, hbranch])]
      exact ⟨_, ⟨[], rfl⟩, .inl ⟨rfl, rfl⟩⟩
    | false =>
      rw [Remote.git_of_absent (by simp [hbase, hbranch])]
      simp only [remote.missing, if_true, recordFetch_run]
      rw [Remote.git_of_present (by simp [hbase])]
      exact ⟨_, ⟨_, rfl⟩, .inl ⟨trivial, rfl⟩⟩
  | false =>
    rw [Remote.git_of_absent (by simp [hbase])]
    simp only [remote.missing, if_true, recordFetch_run]
    rw [Remote.git_of_absent (by simp [hbase])]
    exact ⟨_, ⟨_, rfl⟩, .inr ⟨trivial, _, rfl⟩⟩

end Fetches

/-! ## One call -/

variable {refspecs : List Text}

theorem refspecsToFetch_sublist {repoEntry : Option RepoFetchEntry} {needed : List Text} {fetchMode : FetchMode}
    {now : ℤ} (hne : needed ≠ []) (h : refspecsToFetch repoEntry needed fetchMode now = some refspecs) :
    refspecs.Sublist needed ∧ refspecs ≠ [] := by
  have hall : some needed = some refspecs → refspecs.Sublist needed ∧ refspecs ≠ [] := by
    intro heq
    obtain rfl := Option.some.inj heq
    exact ⟨List.Sublist.refl _, hne⟩
  cases fetchMode with
  | never => cases h
  | force => exact hall h
  | ttl =>
    cases repoEntry with
    | none => exact hall h
    | some entry =>
      simp only [refspecsToFetch] at h
      split at h
      · split at h
        · cases h
        · rename_i hfilter
          obtain rfl := Option.some.inj h
          exact ⟨List.filter_sublist, hfilter⟩
      · exact hall h

theorem sublist_pair {a b : Text} {l : List Text} (h : l.Sublist [a, b]) (hne : l ≠ []) : l = [a, b] ∨ l = [a] ∨ l = [b] := by
  cases h with
  | cons _ h =>
    rcases List.sublist_singleton.mp h with rfl | rfl
    · exact absurd rfl hne
    · exact .inr (.inr rfl)
  | cons_cons _ h =>
    rcases List.sublist_singleton.mp h with rfl | rfl
    · exact .inr (.inl rfl)
    · exact .inl rfl

namespace MissingWorld

variable {w : MissingWorld} {c : RefreshCall}

/-- What a call fetches: the base for itself, both, or what was left out of both. -/
theorem asked_cases (h : w.asked c = some refspecs) :
    (refspecs = [c.branch] ∨ refspecs = [c.base, c.branch]) ∨ (refspecs = [c.base] ∧ c.branch ≠ c.base) := by
  have hsub : refspecs.Sublist c.needed ∧ refspecs ≠ [] := by
    have hne : c.needed ≠ [] := by
      unfold RefreshCall.needed neededRefspecs
      split
      · exact List.cons_ne_nil _ _
      · exact List.cons_ne_nil _ _
    unfold asked at h
    split at h
    · exact refspecsToFetch_sublist hne h
    · split at h
      · obtain rfl := Option.some.inj h
        exact ⟨List.Sublist.refl _, hne⟩
      · cases h
  obtain ⟨hsub, hne⟩ := hsub
  unfold RefreshCall.needed neededRefspecs at hsub
  split at hsub
  · rename_i hdiff
    rcases sublist_pair hsub hne with hboth | hbase | hbranch
    · exact .inl (.inr hboth)
    · exact .inr ⟨hbase, hdiff⟩
    · exact .inl (.inl hbranch)
  · rename_i hsame
    rcases List.sublist_singleton.mp hsub with hnil | hbase
    · exact absurd hnil hne
    · have heq : c.branch = c.base := not_not.mp hsame
      exact .inl (.inl (by rw [hbase, heq]; rfl))

/-- Without a fetch the stored flag is returned, and nothing changes. -/
theorem refresh_of_asked_none (h : w.asked c = none) :
    (w.refresh c).1.upstreamKnownMissing = w.flag c.cacheKey ∧ (w.refresh c).2.2 = w := by
  unfold asked at h
  cases hkey : repoKeyFromLocalCacheKey c.cacheKey with
  | some key =>
    rw [hkey] at h
    have hrun := FetchCaches.refreshRefsIfNeeded_local (recordFetch c.remote.git) w.caches c.branchName c.baseBranch
      c.fetchMode c.now hkey []
    simp only [RefreshCall.needed] at h
    simp only [h] at hrun
    simp only [refresh, hrun]
    exact ⟨rfl, rfl⟩
  | none =>
    rw [hkey] at h
    have hrun := FetchCaches.refreshRefsIfNeeded_remote (recordFetch c.remote.git) w.caches c.branchName c.baseBranch
      c.fetchMode c.now hkey []
    have hneeds : ¬ branchNeedsFetch (w.caches.branches.lookup c.cacheKey) c.fetchMode c.now = true := by
      intro hneeds
      simp only [hneeds, if_true] at h
      cases h
    simp only [if_neg hneeds] at hrun
    simp only [refresh, hrun]
    exact ⟨rfl, rfl⟩

/-- The result of the fetches decides the outcome, and what is stored. -/
theorem refresh_of_asked (h : w.asked c = some refspecs) : ∃ isNarrow, ∀ calls,
    (∀ error, (fetchRefspecs (recordFetch c.remote.git) isNarrow c.base refspecs).run [] = (.error error, calls) →
      (w.refresh c).2.1 = calls.map Prod.fst ∧ (w.refresh c).1.upstreamKnownMissing = false ∧
        (w.refresh c).2.2.caches = w.caches) ∧
    ∀ missing, (fetchRefspecs (recordFetch c.remote.git) isNarrow c.base refspecs).run [] = (.ok missing, calls) →
      (w.refresh c).2.1 = calls.map Prod.fst ∧ (w.refresh c).1.upstreamKnownMissing = missing ∧
        (w.refresh c).2.2.caches.branches = w.caches.branches.insert c.cacheKey ⟨c.now, missing⟩ := by
  unfold asked at h
  cases hkey : repoKeyFromLocalCacheKey c.cacheKey with
  | some key =>
    rw [hkey] at h
    have hrun := FetchCaches.refreshRefsIfNeeded_local (recordFetch c.remote.git) w.caches c.branchName c.baseBranch
      c.fetchMode c.now hkey []
    simp only [RefreshCall.needed] at h
    simp only [h] at hrun
    refine ⟨decide (refspecs.length < (neededRefspecs c.branchName c.baseBranch).length), fun calls => ⟨?_, ?_⟩⟩
    · intro error hresult
      rw [RefreshCall.base] at hresult
      simp only [hresult] at hrun
      simp [refresh, hrun]
    · intro missing hresult
      rw [RefreshCall.base] at hresult
      simp only [hresult] at hrun
      simp [refresh, hrun]
  -- a remote key: the entry of the branch decides alone
  | none =>
    rw [hkey] at h
    have hrun := FetchCaches.refreshRefsIfNeeded_remote (recordFetch c.remote.git) w.caches c.branchName c.baseBranch
      c.fetchMode c.now hkey []
    by_cases hneeds : branchNeedsFetch (w.caches.branches.lookup c.cacheKey) c.fetchMode c.now = true
    · simp only [hneeds, if_true, Option.some.injEq] at h
      simp only [if_pos hneeds] at hrun
      refine ⟨false, fun calls => ⟨?_, ?_⟩⟩
      · intro error hresult
        rw [RefreshCall.base, ← h, RefreshCall.needed] at hresult
        simp only [hresult] at hrun
        simp [refresh, hrun]
      · intro missing hresult
        rw [RefreshCall.base, ← h, RefreshCall.needed] at hresult
        simp only [hresult] at hrun
        simp [refresh, hrun]
    · simp only [if_neg hneeds] at h
      cases h

/-- What a call does that fetches. -/
structure Fetched (w : MissingWorld) (c : RefreshCall) (refspecs : List Text) : Prop where
  /-- The first fetch asks for the refspecs. -/
  asks : ∃ command ∈ (w.refresh c).2.1, command.refspecs = refspecs
  noted : (w.refresh c).2.2.lastFetch = w.lastFetch.insert c.cacheKey ⟨c.branch, c.remote⟩
  /-- Other keys keep their flags. -/
  others : ∀ key, key ≠ c.cacheKey → (w.refresh c).2.2.flag key = w.flag key

theorem fetched_of {commands : List FetchCommand}
    (hcommands : (w.refresh c).2.1 = command :: commands) (hasks : command.refspecs = refspecs)
    (hothers : ∀ key, key ≠ c.cacheKey → (w.refresh c).2.2.flag key = w.flag key) : Fetched w c refspecs where
  asks := ⟨command, by rw [hcommands]; exact List.mem_cons_self, hasks⟩
  noted := by
    have hne : (w.refresh c).2.1 ≠ [] := by
      rw [hcommands]
      exact List.cons_ne_nil _ _
    exact if_neg hne
  others := hothers

theorem flag_insert {w' : MissingWorld} {missing : Bool}
    (h : w'.caches.branches = w.caches.branches.insert c.cacheKey ⟨c.now, missing⟩) :
    w'.flag c.cacheKey = missing ∧ ∀ key, key ≠ c.cacheKey → w'.flag key = w.flag key := by
  refine ⟨?_, fun key hkey => ?_⟩
  · rw [flag, h, AList.lookup_insert]
    rfl
  · rw [flag, h, AList.lookup_insert_ne hkey]
    rfl

/-- A fetch of one refspec sets the flag by this refspec. -/
theorem refresh_single {refspec : Text} (h : w.asked c = some [refspec]) :
    Fetched w c [refspec] ∧ (w.refresh c).1.upstreamKnownMissing = !c.remote.present refspec ∧
      (w.refresh c).2.2.flag c.cacheKey = !c.remote.present refspec := by
  obtain ⟨isNarrow, hrefresh⟩ := refresh_of_asked h
  obtain ⟨hcommands, houtcome, hbranches⟩ := (hrefresh _).2 _ fetch_single
  obtain ⟨hflag, hothers⟩ := flag_insert hbranches
  exact ⟨fetched_of hcommands rfl hothers, houtcome, hflag⟩

/-- A fetch of base and branch sets the flag by the branch, unless the base is missing. -/
theorem refresh_pair (h : w.asked c = some [c.base, c.branch]) :
    Fetched w c [c.base, c.branch] ∧
      if c.remote.present c.base then
        (w.refresh c).1.upstreamKnownMissing = !c.remote.present c.branch ∧
          (w.refresh c).2.2.flag c.cacheKey = !c.remote.present c.branch
      else (w.refresh c).1.upstreamKnownMissing = false ∧ (w.refresh c).2.2.flag c.cacheKey = w.flag c.cacheKey := by
  obtain ⟨isNarrow, hrefresh⟩ := refresh_of_asked h
  obtain ⟨calls, ⟨rest, hcalls⟩, ⟨hbase, hrun⟩ | ⟨hbase, error, hrun⟩⟩ :=
    @fetch_pair c.remote isNarrow c.base c.branch
  · obtain ⟨hcommands, houtcome, hbranches⟩ := (hrefresh calls).2 _ hrun
    obtain ⟨hflag, hothers⟩ := flag_insert hbranches
    rw [hbase, if_pos rfl]
    exact ⟨fetched_of (hcommands.trans hcalls) rfl hothers, houtcome, hflag⟩
  · obtain ⟨hcommands, houtcome, hcaches⟩ := (hrefresh calls).1 _ hrun
    have hsame : ∀ key, (w.refresh c).2.2.flag key = w.flag key := fun key => by rw [flag, hcaches, flag]
    rw [hbase, if_neg Bool.false_ne_true]
    exact ⟨fetched_of (hcommands.trans hcalls) rfl fun key _ => hsame key, houtcome, hsame _⟩

end MissingWorld

/-! ## Runs in which the flag is right -/

namespace MissingWorld

variable {w : MissingWorld} {c : RefreshCall}

/-- A flag that is set was right at the most recent fetch under its key. -/
def Inv (w : MissingWorld) : Prop :=
  ∀ key, w.flag key = true → ∃ note, w.lastFetch.lookup key = some note ∧ note.remote.present note.branch = false

/-- After a fetch the invariant holds if it does of the key of the call. -/
theorem Inv.of_fetched (h : w.Inv) (hfetched : Fetched w c refspecs)
    (hflag : (w.refresh c).2.2.flag c.cacheKey = true → c.remote.present c.branch = false) : (w.refresh c).2.2.Inv := by
  intro key hkey
  rw [hfetched.noted]
  by_cases heq : key = c.cacheKey
  · subst heq
    exact ⟨_, AList.lookup_insert _, hflag hkey⟩
  · rw [hfetched.others key heq] at hkey
    obtain ⟨note, hnote, habsent⟩ := h key hkey
    exact ⟨note, by rwa [AList.lookup_insert_ne heq], habsent⟩

/-- After a fetch the flag of the call is right if the branch is missing then. -/
theorem Fetched.sound (hfetched : Fetched w c refspecs)
    (hflag : (w.refresh c).1.upstreamKnownMissing = true → c.remote.present c.branch = false)
    (hreset : w.flag c.cacheKey = true → (w.refresh c).2.2.flag c.cacheKey = false → c.branch ∈ refspecs) :
    FlagIsSound w c := by
  refine ⟨fun hset => ⟨⟨c.branch, c.remote⟩, ?_, hflag hset⟩, fun hbefore hafter => ?_⟩
  · rw [hfetched.noted, AList.lookup_insert]
  · obtain ⟨command, hcommand, hasks⟩ := hfetched.asks
    exact ⟨command, hcommand, hasks ▸ hreset hbefore hafter⟩

/-- One call that meets the condition. -/
theorem Inv.refresh (h : w.Inv) (hkept : FlagKept w c) : (w.refresh c).2.2.Inv ∧ FlagIsSound w c := by
  cases hasked : w.asked c with
  -- nothing is asked: the flag is the one in the cache
  | none =>
    obtain ⟨houtcome, hsame⟩ := refresh_of_asked_none hasked
    rw [FlagIsSound, hsame, houtcome]
    refine ⟨h, fun hset => ?_, fun hbefore hafter => ?_⟩
    · obtain ⟨note, hnote, habsent⟩ := h c.cacheKey hset
      exact ⟨note, hnote, hkept.same_branch hasked hset note hnote ▸ habsent⟩
    · exact absurd (hafter.symm.trans hbefore) Bool.false_ne_true
  | some refspecs =>
    -- the fetch names one of the two branches, or both, or the base alone
    rcases asked_cases hasked with (rfl | rfl) | ⟨rfl, hdiff⟩
    · obtain ⟨hfetched, houtcome, hflag⟩ := refresh_single hasked
      have habsent : (!c.remote.present c.branch) = true → c.remote.present c.branch = false := by simp
      rw [← houtcome] at hflag
      exact ⟨h.of_fetched hfetched (by rw [hflag, houtcome]; exact habsent),
        hfetched.sound (by rw [houtcome]; exact habsent) fun _ _ => List.mem_cons_self⟩
    · obtain ⟨hfetched, hpair⟩ := refresh_pair hasked
      have habsent : (!c.remote.present c.branch) = true → c.remote.present c.branch = false := by simp
      cases hbase : c.remote.present c.base with
      | true =>
        rw [hbase, if_pos rfl] at hpair
        obtain ⟨houtcome, hflag⟩ := hpair
        exact ⟨h.of_fetched hfetched (by rw [hflag]; exact habsent),
          hfetched.sound (by rw [houtcome]; exact habsent) fun _ _ => by simp⟩
      | false =>
        rw [hbase, if_neg Bool.false_ne_true] at hpair
        obtain ⟨houtcome, hflag⟩ := hpair
        refine ⟨h.of_fetched hfetched fun hset => ?_, hfetched.sound (fun hset => ?_) fun _ _ => by simp⟩
        · exact hkept.base_missing hasked hbase (hflag ▸ hset)
        · exact absurd (houtcome.symm.trans hset) Bool.false_ne_true
    · obtain ⟨hfetched, houtcome, hflag⟩ := refresh_single hasked
      have hcond := hkept.base_alone hasked hdiff
      cases hbase : c.remote.present c.base with
      | true =>
        rw [hbase, if_pos rfl] at hcond
        rw [hbase] at houtcome hflag
        refine ⟨h.of_fetched hfetched fun hset => ?_, hfetched.sound (fun hset => ?_) fun hbefore _ => ?_⟩
        · exact absurd (hflag.symm.trans hset) Bool.false_ne_true
        · exact absurd (houtcome.symm.trans hset) Bool.false_ne_true
        · exact absurd (hcond.symm.trans hbefore) Bool.false_ne_true
      | false =>
        rw [hbase, if_neg Bool.false_ne_true] at hcond
        rw [hbase] at hflag
        refine ⟨h.of_fetched hfetched fun _ => hcond, hfetched.sound (fun _ => hcond) fun _ hafter => ?_⟩
        exact absurd (hafter.symm.trans hflag) Bool.false_ne_true

theorem Inv.new : Inv {} := fun _ h => absurd h Bool.false_ne_true

end MissingWorld

/-- The flag is right in every run in which the base is not fetched alone for another branch at the wrong time, no fetch fails
while a flag is set that is not right any more, and a flag is read for the branch it was stored for. -/
theorem flags_sound (calls : List RefreshCall) (h : Along MissingWorld.step MissingWorld.FlagKept {} calls) :
    Along MissingWorld.step MissingWorld.FlagIsSound {} calls := by
  refine h.of_invariant MissingWorld.Inv.new (fun w c t hinv hkept hstep => ?_) fun w c hinv hkept =>
    (hinv.refresh hkept).2
  rw [← Option.some.inj hstep]
  exact (hinv.refresh hkept).1

/-- A remote that has the refspecs of some branches. -/
def remoteWith (branches : List Text) : Remote where
  present refspec := branches.any fun branch => refspecFor branch = refspec
  error _ := "fatal: couldn't find remote ref".toList
  missing _ := by decide

/-- A call for the branch `a` of `/r`. -/
def callOnA (baseBranch : Text) (fetchMode : FetchMode) (now : ℤ) (branches : List Text) : RefreshCall where
  cacheKey := localGitStateCacheKey "/r".toList "a".toList baseBranch
  branchName := "a".toList
  baseBranch := baseBranch
  fetchMode := fetchMode
  now := now
  remote := remoteWith branches

/-- The branch is missing, and it is found later. -/
def pushedLater : List RefreshCall :=
  [callOnA "m".toList .ttl 0 ["m".toList], callOnA "m".toList .force 1000 ["m".toList, "a".toList]]

theorem pushedLater_sound :
    Along MissingWorld.step MissingWorld.FlagKept {} pushedLater ∧
      Along MissingWorld.step MissingWorld.FlagIsSound {} pushedLater := by
  have hpair : ∀ (w : MissingWorld) (c : RefreshCall), w.asked c = some [c.base, c.branch] →
      c.remote.present c.base = true → MissingWorld.FlagKept w c := by
    intro w c hasked hbase
    refine ⟨fun hnone => ?_, fun halone _ => ?_, fun _ habsent => ?_⟩
    · rw [hasked] at hnone
      cases hnone
    · rw [hasked] at halone
      cases halone
    · exact absurd (habsent.symm.trans hbase) Bool.false_ne_true
  have h : Along MissingWorld.step MissingWorld.FlagKept {} pushedLater :=
    ⟨hpair _ _ (by decide) (by decide), fun w _ => ⟨hpair w _ rfl (by decide), fun _ _ => trivial⟩⟩
  exact ⟨h, flags_sound pushedLater h⟩

/-- The repository is fresh for the branch when it is compared with a base that is missing: only the base is fetched, and the
branch, which is there, is taken to be missing. -/
theorem missingBase_hides_branch :
    ∃ w, run MissingWorld.step {} [callOnA "m".toList .ttl 0 ["m".toList, "a".toList]] = some w ∧
      ¬ MissingWorld.FlagIsSound w (callOnA "z".toList .ttl 1000 ["m".toList, "a".toList]) := by
  refine ⟨_, rfl, fun h => ?_⟩
  obtain ⟨note, hnote, habsent⟩ := h.1 (by decide)
  have hpresent : note.remote.present (refspecFor "a".toList) = true := by
    rw [← Option.some.inj hnote]
    decide
  exact absurd (habsent.symm.trans hpresent) Bool.false_ne_true

end Builderbot.Git
