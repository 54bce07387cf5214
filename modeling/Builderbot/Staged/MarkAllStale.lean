import Builderbot.Staged.BrowserCache

/-!
# Marking everything stale

`markAllStale` of `apps/staged/src/lib/cache.ts` reads all entries and writes each of them back with
the flag set, without a transaction around the two. It changes nothing but the flag as long as no
other function sets or deletes an entry between the reading of it and the writing.
-/

namespace Builderbot.Staged

/-- The keys that a fetch deletes in its next step, after a quota error. -/
def FetchPhase.evicted {D : Type*} : FetchPhase D → List (List Char)
  | .listing _ allEntries => CacheWorld.toEvict allEntries
  | _ => []

namespace CacheWorld

variable {D A V : Type*} (J : ArgsCodec A V)

/-- The keys that a step sets or deletes, apart from what `markAllStale` writes back. -/
def touched (w : CacheWorld D) : CacheStep D A V → List (List Char)
  | .resume i => w.fetches[i]?.elim [] (·.phase.evicted)
  | .respond i (some _) .ok =>
    w.fetches[i]?.elim [] fun f =>
      if f.phase.request.map (·.epochAtStart) = some (w.getEpoch f.key) then [f.key] else []
  | .retry i .ok => w.fetches[i]?.elim [] fun f => if f.phase.retried.isSome then [f.key] else []
  | .invalidateCache command args => [J.cacheKey command args]
  | .resumeInvalidation i => w.invalidations[i]?.elim [] (·.phase.listed.getD [])
  | .resumeEviction i => w.evictions[i]?.elim [] toEvict
  | .clearAllCache => w.store.keys
  | _ => []

/-- A run of `markAllStale` has read the key and not written it back yet. -/
def MarkPending (w : CacheWorld D) (key : List Char) : Prop := ∃ m ∈ w.marks, key ∈ m.map Prod.fst

instance (w : CacheWorld D) (key : List Char) : Decidable (w.MarkPending key) :=
  inferInstanceAs (Decidable (∃ m ∈ w.marks, key ∈ m.map Prod.fst))

/-- The step sets and deletes no entry that a run of `markAllStale` holds. -/
def LeavesMarks (w : CacheWorld D) (l : CacheStep D A V) : Prop :=
  ∀ key ∈ w.touched J l, ¬ w.MarkPending key

instance (w : CacheWorld D) (l : CacheStep D A V) : Decidable (w.LeavesMarks J l) :=
  inferInstanceAs (Decidable (∀ key ∈ w.touched J l, ¬ w.MarkPending key))

/-! ## What the other steps leave alone -/

section Frame

variable {w w' : CacheWorld D} {i : ℕ} {f : Fetch D} {keys : List (List Char)}

/-- The entries outside `keys` and the runs of `markAllStale` are as before. -/
structure Keeps (w w' : CacheWorld D) (keys : List (List Char)) : Prop where
  lookup : ∀ key ∉ keys, w'.store.lookup key = w.store.lookup key
  marks : w'.marks = w.marks

theorem Keeps.trans {u : CacheWorld D} (h : Keeps w w' keys) (h' : Keeps w' u keys) :
    Keeps w u keys :=
  ⟨fun key hkey => (h'.lookup key hkey).trans (h.lookup key hkey), h'.marks.trans h.marks⟩

theorem keeps_setPhase (phase : FetchPhase D) : Keeps w (w.setPhase i phase) keys :=
  ⟨fun _ _ => rfl, rfl⟩

theorem keeps_issue (k : List Char) : Keeps w (w.issue i k) keys := ⟨fun _ _ => rfl, rfl⟩

theorem keeps_del : Keeps w (w.del keys) keys :=
  ⟨fun key hkey => by rw [lookup_del, if_neg hkey], rfl⟩

theorem keeps_set {k : List Char} {value : Stored D} {result : SetResult}
    (h : result = .ok → k ∈ keys) : Keeps w (w.set k value result) keys := by
  refine ⟨fun key hkey => ?_, by rw [w.set_eq]⟩
  rw [lookup_set, if_neg]
  rintro ⟨hok, rfl⟩
  exact hkey (h hok)

/-- A fetch that resumes only evicts. -/
theorem keeps_resumeFetch (h : w.resumeFetch i f = some w') : Keeps w w' f.phase.evicted := by
  unfold resumeFetch at h
  split at h <;> rename_i hphase
  · rw [Option.some.injEq] at h
    subst h
    unfold afterGet
    split
    · exact keeps_issue _
    · split
      · exact keeps_setPhase _
      · split
        · exact keeps_setPhase _
        · exact keeps_issue _
  · rw [Option.some.injEq] at h
    subst h
    split
    · exact keeps_setPhase _
    · exact keeps_issue _
  · rw [Option.some.injEq] at h
    subst h
    unfold afterSet
    split
    · exact keeps_setPhase _
    · exact ⟨fun _ _ => rfl, rfl⟩
  · rw [Option.some.injEq] at h
    subst h
    rw [hphase]
    exact keeps_del.trans (keeps_setPhase _)
  · rw [Option.some.injEq] at h
    subst h
    rw [w.removeInFlight_eq]
    exact ⟨fun _ _ => rfl, rfl⟩
  all_goals exact absurd h nofun

/-- A response writes under the key of its fetch. -/
theorem keeps_respondFetch {data : Option D} {result : SetResult}
    (h : w.respondFetch i f data result = some w')
    (hkeys : data.isSome = true → result = .ok →
      f.phase.request.map (·.epochAtStart) = some (w.getEpoch f.key) → f.key ∈ keys) :
    Keeps w w' keys := by
  unfold respondFetch at h
  split at h
  · rename_i e a hphase
    rw [Option.some.injEq] at h
    subst h
    unfold afterNetwork
    split
    · exact keeps_setPhase _
    · split
      · rename_i hepoch
        refine (keeps_set fun hok => hkeys rfl hok ?_).trans (keeps_setPhase _)
        rw [hphase, hepoch]
        rfl
      · exact keeps_setPhase _
  · exact absurd h nofun

/-- So does a retry. -/
theorem keeps_retryFetch {result : SetResult} (h : w.retryFetch i f result = some w')
    (hkeys : result = .ok → f.phase.retried.isSome = true → f.key ∈ keys) : Keeps w w' keys := by
  unfold retryFetch at h
  split at h
  · rename_i value hphase
    rw [Option.some.injEq] at h
    subst h
    refine (keeps_set fun hok => hkeys hok ?_).trans (keeps_setPhase _)
    rw [hphase]
    rfl
  · exact absurd h nofun

/-- An invalidation deletes what it has listed. -/
theorem keeps_resumeInvalidation {v : Invalidation} (h : w.resumeInvalidation i v = some w') :
    Keeps w w' (v.phase.listed.getD []) := by
  unfold resumeInvalidation at h
  split at h
  · rename_i idbMatching hphase
    rw [Option.some.injEq] at h
    subst h
    rw [hphase, (w.foldl_bumpEpoch _).1]
    exact ⟨keeps_del.lookup, rfl⟩
  · rw [Option.some.injEq] at h
    exact h ▸ ⟨fun _ _ => rfl, rfl⟩
  · exact absurd h nofun

/-- A step that is not one of `markAllStale` keeps every entry that it does not touch. -/
theorem act_keeps {l : CacheStep D A V} (h : w.act J l = some w') (hread : l ≠ .markAllStale)
    (hwrite : ∀ i result, l ≠ .writeStale i result) : Keeps w w' (w.touched J l) := by
  cases l with
  | fetch kind command args ttl getFails =>
    rw [act, Option.some.injEq] at h
    subst h
    unfold startFetch
    dsimp only
    split <;> exact ⟨fun _ _ => rfl, rfl⟩
  | resume i =>
    obtain ⟨f, hf, hw'⟩ := Option.bind_eq_some_iff.mp h
    rw [touched, hf]
    exact keeps_resumeFetch hw'
  | respond i data result =>
    obtain ⟨f, hf, hw'⟩ := Option.bind_eq_some_iff.mp h
    refine keeps_respondFetch hw' fun hdata hok hrequest => ?_
    obtain ⟨d, rfl⟩ := Option.isSome_iff_exists.mp hdata
    subst hok
    rw [touched, hf, Option.elim_some, if_pos hrequest]
    exact List.mem_singleton.mpr rfl
  | retry i result =>
    obtain ⟨f, hf, hw'⟩ := Option.bind_eq_some_iff.mp h
    refine keeps_retryFetch hw' fun hok hretried => ?_
    subst hok
    rw [touched, hf, Option.elim_some, if_pos hretried]
    exact List.mem_singleton.mpr rfl
  | invalidateCache command args =>
    rw [act, Option.some.injEq] at h
    subst h
    exact ⟨keeps_del.lookup, rfl⟩
  | invalidateCacheByCommand | invalidateCacheByArgs | tick =>
    rw [act, Option.some.injEq] at h
    exact h ▸ ⟨fun _ _ => rfl, rfl⟩
  | resumeInvalidation i =>
    obtain ⟨v, hv, hw'⟩ := Option.bind_eq_some_iff.mp h
    rw [touched, hv]
    exact keeps_resumeInvalidation hw'
  | resumeEviction i =>
    obtain ⟨allEntries, he, rfl⟩ := Option.map_eq_some_iff.mp h
    rw [touched, he]
    exact ⟨keeps_del.lookup, rfl⟩
  | markAllStale => exact absurd rfl hread
  | writeStale i result => exact absurd rfl (hwrite i result)
  -- nothing is left, and all that was there is touched
  | clearAllCache =>
    rw [act, Option.some.injEq] at h
    subst h
    refine ⟨fun key hkey => ?_, rfl⟩
    have hnone : w.store.lookup key = none := AList.lookup_eq_none.mpr hkey
    exact hnone.symm ▸ rfl

end Frame

/-! ## The invariant -/

/-- Every entry that a run of `markAllStale` holds is still in the store, up to the flag. -/
def MarksCurrent (w : CacheWorld D) : Prop :=
  ∀ m ∈ w.marks, ∀ e ∈ m, ∃ st, w.store.lookup e.1 = some st ∧
    st.entry.markStale = e.2.entry.markStale

/-- What one write of `markAllStale` does: it either fails, or replaces the entry it has read. -/
theorem writeStale_spec {w w' : CacheWorld D} {i : ℕ} {result : SetResult}
    {m : List (List Char × Stored D)} (h : w.writeStale i result m = some w') :
    ∃ key value rest, m = (key, value) :: rest ∧ w'.marks = w.marks.set i rest ∧
      ∀ k, w'.store.lookup k = if result = .ok ∧ k = key
        then some { value with entry := value.entry.markStale } else w.store.lookup k := by
  cases m with
  | nil => exact absurd h nofun
  | cons e rest =>
    obtain ⟨key, value⟩ := e
    rw [writeStale, Option.some.injEq] at h
    subst h
    exact ⟨key, value, rest, rfl, rfl, fun k => w.lookup_set ..⟩

/-- A write of `markAllStale` sets the flag of one entry of the store. -/
def SetsOneFlag (w w' : CacheWorld D) : Prop :=
  ∀ k, w'.store.lookup k = w.store.lookup k ∨
    ∃ st st', w.store.lookup k = some st ∧ w'.store.lookup k = some st' ∧
      st'.entry = st.entry.markStale

/-- A write of a current mark sets the flag and nothing else. -/
theorem MarksCurrent.setsOneFlag {w w' : CacheWorld D} (h : w.MarksCurrent) {i : ℕ}
    {result : SetResult} (hact : w.act J (.writeStale i result : CacheStep D A V) = some w') :
    w.SetsOneFlag w' := by
  obtain ⟨m, hm, hw'⟩ := Option.bind_eq_some_iff.mp hact
  obtain ⟨key, value, rest, rfl, -, hlookup⟩ := writeStale_spec hw'
  obtain ⟨st, hst, hentry⟩ := h _ (List.mem_of_getElem? hm) (key, value) List.mem_cons_self
  intro k
  by_cases hk : result = .ok ∧ k = key
  · obtain ⟨hok, rfl⟩ := hk
    refine .inr ⟨st, _, hst, (hlookup k).trans (if_pos ⟨hok, rfl⟩), hentry.symm⟩
  · exact .inl ((hlookup k).trans (if_neg hk))

/-- A mark stays current while no other step touches its key. -/
theorem act_marksCurrent {w w' : CacheWorld D} {l : CacheStep D A V} (h : w.MarksCurrent)
    (hg : w.LeavesMarks J l) (hact : w.act J l = some w') : w'.MarksCurrent := by
  by_cases hread : l = .markAllStale
  · -- what is read now is what the store holds
    subst hread
    rw [act, Option.some.injEq] at hact
    subst hact
    intro m hm e he
    rcases List.mem_append.mp hm with hm | hm
    · exact h m hm e he
    · rw [List.mem_singleton] at hm
      subst hm
      exact ⟨e.2, w.mem_entries_iff.mp he, rfl⟩
  by_cases hwrite : ∃ i result, l = .writeStale i result
  · obtain ⟨i, result, rfl⟩ := hwrite
    have hflag := h.setsOneFlag J hact
    obtain ⟨m, hm, hw'⟩ := Option.bind_eq_some_iff.mp hact
    obtain ⟨key, value, rest, rfl, hmarks, -⟩ := writeStale_spec hw'
    intro m' hm' e he
    have hold : ∃ m ∈ w.marks, e ∈ m := by
      rw [hmarks] at hm'
      rcases List.mem_or_eq_of_mem_set hm' with hmem | rfl
      · exact ⟨m', hmem, he⟩
      · exact ⟨_, List.mem_of_getElem? hm, List.mem_cons_of_mem _ he⟩
    obtain ⟨m, hm, he⟩ := hold
    obtain ⟨st, hst, hentry⟩ := h m hm e he
    rcases hflag e.1 with hsame | ⟨cur, st', hcur, hst', hmark⟩
    · exact ⟨st, hsame.trans hst, hentry⟩
    · obtain rfl := Option.some.inj (hst.symm.trans hcur)
      exact ⟨st', hst', by rw [hmark, CacheEntry.markStale_markStale, hentry]⟩
  · have hkeep := act_keeps J hact hread fun i result heq => hwrite ⟨i, result, heq⟩
    intro m hm e he
    rw [hkeep.marks] at hm
    have hpending : w.MarkPending e.1 := ⟨m, hm, List.mem_map_of_mem he⟩
    obtain ⟨st, hst, hentry⟩ := h m hm e he
    exact ⟨st, (hkeep.lookup e.1 fun htouched => hg e.1 htouched hpending).trans hst, hentry⟩

/-- The clock has no part in it. -/
theorem step_marksCurrent {w w' : CacheWorld D} {l : CacheStep D A V} (h : w.MarksCurrent)
    (hg : w.LeavesMarks J l) (hstep : w.step J l = some w') : w'.MarksCurrent := by
  obtain ⟨u, hact, rfl⟩ := Option.map_eq_some_iff.mp hstep
  have hu := act_marksCurrent J h hg hact
  exact hu

/-- In every run in which the other functions leave the entries alone that a run of `markAllStale`
holds, each write of `markAllStale` does nothing but set the flag of an entry of the store: it neither
brings a key back nor replaces data. -/
theorem markAllStale_sets_only_flags {store : Table (List Char) (Stored D)} {now : ℕ}
    {ls : List (CacheStep D A V)} {w : CacheWorld D} (h : run (step J) (init store now) ls = some w)
    (hg : Along (step J) (LeavesMarks J) (init store now) ls) :
    ∀ i result w', w.step J (.writeStale i result : CacheStep D A V) = some w' →
      w.SetsOneFlag w' := by
  have hinit : (init store now).MarksCurrent := nofun
  have hcurrent : w.MarksCurrent :=
    run_invariant_along (fun s l t hi hgl hst => step_marksCurrent J hi hgl hst) hinit hg h
  intro i result w' hstep
  obtain ⟨u, hact, rfl⟩ := Option.map_eq_some_iff.mp hstep
  have hflag := hcurrent.setsOneFlag J hact
  exact hflag

/-- A fetch stores a first value; then the page resumes. -/
def storedThenMarked : List (CacheStep ℕ Unit ℕ) :=
  [.fetch .cachedCommand ['c'] none 60000 false, .resume 0, .respond 0 (some 7) .ok, .markAllStale]

theorem markAllStale_after_fetch : ∃ w w', run (step emptyArgs) (init ∅ 1) storedThenMarked = some w ∧
    w.step emptyArgs (.writeStale 0 .ok) = some w' ∧ w.SetsOneFlag w' ∧ w'.store.keys = [['c', ':']] := by
  have hg : Along (step emptyArgs) (LeavesMarks emptyArgs) (init ∅ 1) storedThenMarked := by decide
  obtain ⟨w, w', hw, hw', hkeys⟩ : ∃ w w', run (step emptyArgs) (init ∅ 1) storedThenMarked = some w ∧
      w.step emptyArgs (.writeStale 0 .ok) = some w' ∧ w'.store.keys = [['c', ':']] :=
    ⟨_, _, rfl, rfl, rfl⟩
  exact ⟨w, w', hw, hw', markAllStale_sets_only_flags emptyArgs hw hg 0 .ok w' hw', hkeys⟩

/-- Between the reading of `markAllStale` and its writing, an invalidation deletes the entry in the
one run, and a newer answer is stored in the other. -/
theorem markAllStale_undoes_others :
    (∃ w w', run (step emptyArgs) (init ∅ 1)
        (storedThenMarked ++ [.invalidateCache ['c'] none]) = some w ∧
      w.step emptyArgs (.writeStale 0 .ok) = some w' ∧
      w.store.lookup ['c', ':'] = none ∧ (w'.store.lookup ['c', ':']).isSome) ∧
    (∃ w w', run (step emptyArgs) (init ∅ 1)
        (storedThenMarked ++ [.tick 5, .fetch (.cachedInvoke true) ['c'] none 60000 false,
          .respond 1 (some 8) .ok]) = some w ∧
      w.step emptyArgs (.writeStale 0 .ok) = some w' ∧
      (w.store.lookup ['c', ':']).map (·.entry) = some ⟨['c', ':'], 8, 6, 1, false⟩ ∧
      (w'.store.lookup ['c', ':']).map (·.entry) = some ⟨['c', ':'], 7, 1, 1, true⟩) := by
  constructor
  · exact ⟨_, _, rfl, rfl, by decide, by decide⟩
  · exact ⟨_, _, rfl, rfl, by decide, by decide⟩

end CacheWorld

end Builderbot.Staged
