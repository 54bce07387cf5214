import Builderbot.Staged.BrowserCache

/-!
# Invalidation against fetches under way

An invalidation must not be undone by a fetch whose request is older. Three things guard against it:
the epoch that a fetch compares before it writes, the count of keys in flight that tells a scoped
invalidator which epochs to bump, and the deletion of the keys it has listed.

`Undisturbed` says where this protection has no gap: the clock has moved when an epoch is bumped under
a fetch, no write lands between the listing of a scoped invalidator and its deletions unless the key
was listed, and no second `set` of `cacheSet`, which compares no epoch, comes after an invalidation.
-/

namespace Builderbot.Staged

/-- The fetch is counted in `inFlightKeys`. -/
def FetchPhase.inFlight {D : Type*} : FetchPhase D → Bool
  | .reading _ | .yielded _ | .done => false
  | .fetching .. | .storing .. | .listing .. | .evicting _ | .settling => true

/-- The fetch is counted under this key. -/
def Fetch.countedAt {D : Type*} (key : List Char) (f : Fetch D) : Bool :=
  f.phase.inFlight && f.key = key

namespace Invalidation

/-- The invalidator has listed the key and has not deleted it yet. -/
def WillDelete (v : Invalidation) (key : List Char) : Prop := ∃ keys ∈ v.phase.listed, key ∈ keys

/-- The invalidation covers the key and began after the moment. -/
def Outdates (v : Invalidation) (key : List Char) (issuedAt : ℕ) : Prop :=
  v.covers key = true ∧ issuedAt < v.beganAt

instance (v : Invalidation) (key : List Char) (issuedAt : ℕ) : Decidable (v.Outdates key issuedAt) :=
  inferInstanceAs (Decidable (_ ∧ _))

end Invalidation

namespace CacheWorld

variable {D A V : Type*} (J : ArgsCodec A V)

/-- Bumping the epoch of the key at this time does not escape a fetch that is older than `beganAt`. -/
def ClockMoved (w : CacheWorld D) (key : List Char) (beganAt : ℕ) : Prop :=
  ∀ f ∈ w.fetches, f.key = key → ∀ r ∈ f.phase.request,
    r.epochAtStart = w.getEpoch key → r.issuedAt < beganAt → w.getEpoch key ≠ w.now

/-- Every later invalidation of the key that has listed its keys, and not deleted them, has listed
this one. -/
def Listed (w : CacheWorld D) (key : List Char) (issuedAt : ℕ) : Prop :=
  ∀ v ∈ w.invalidations, v.Outdates key issuedAt → ∀ keys ∈ v.phase.listed, key ∈ keys

/-- Where the protection has no gap. The functions considered are the fetches and the invalidators;
evictions run inside the fetches. -/
def Undisturbed (w : CacheWorld D) : CacheStep D A V → Prop
  | .respond i (some _) .ok =>
    ∀ f ∈ w.fetches[i]?, ∀ r ∈ f.phase.request, r.epochAtStart = w.getEpoch f.key →
      w.Listed f.key r.issuedAt
  | .retry i .ok =>
    ∀ f ∈ w.fetches[i]?, ∀ value ∈ f.phase.retried, w.Listed f.key value.issuedAt ∧
      ∀ v ∈ w.invalidations, v.Outdates f.key value.issuedAt → v.phase.listed.isSome
  | .invalidateCache command args => w.ClockMoved (J.cacheKey command args) w.moment
  | .resumeInvalidation i =>
    ∀ v ∈ w.invalidations[i]?, ∀ keys ∈ v.phase.listed, ∀ k ∈ w.toBump v keys,
      w.ClockMoved k v.beganAt
  | .markAllStale | .writeStale .. => False
  | _ => True

instance (w : CacheWorld D) (key : List Char) (beganAt : ℕ) : Decidable (w.ClockMoved key beganAt) :=
  inferInstanceAs (Decidable (∀ f ∈ w.fetches, f.key = key → ∀ r ∈ f.phase.request,
    r.epochAtStart = w.getEpoch key → r.issuedAt < beganAt → w.getEpoch key ≠ w.now))

instance (w : CacheWorld D) (key : List Char) (issuedAt : ℕ) : Decidable (w.Listed key issuedAt) :=
  inferInstanceAs (Decidable (∀ v ∈ w.invalidations, v.Outdates key issuedAt →
    ∀ keys ∈ v.phase.listed, key ∈ keys))

instance (w : CacheWorld D) : ∀ l : CacheStep D A V, Decidable (w.Undisturbed J l)
  | .respond i (some _) .ok => inferInstanceAs (Decidable (∀ f ∈ w.fetches[i]?,
      ∀ r ∈ f.phase.request, r.epochAtStart = w.getEpoch f.key → w.Listed f.key r.issuedAt))
  | .retry i .ok => inferInstanceAs (Decidable (∀ f ∈ w.fetches[i]?, ∀ value ∈ f.phase.retried,
      w.Listed f.key value.issuedAt ∧ ∀ v ∈ w.invalidations, v.Outdates f.key value.issuedAt →
        v.phase.listed.isSome))
  | .invalidateCache command args =>
    inferInstanceAs (Decidable (w.ClockMoved (J.cacheKey command args) w.moment))
  | .resumeInvalidation i => inferInstanceAs (Decidable (∀ v ∈ w.invalidations[i]?,
      ∀ keys ∈ v.phase.listed, ∀ k ∈ w.toBump v keys, w.ClockMoved k v.beganAt))
  | .markAllStale | .writeStale .. => .isFalse id
  | .respond _ none _ | .respond _ (some _) .quotaExceeded | .respond _ (some _) .otherError
  | .retry _ .quotaExceeded | .retry _ .otherError | .fetch .. | .resume _
  | .invalidateCacheByCommand _ | .invalidateCacheByArgs .. | .resumeEviction _ | .clearAllCache
  | .tick _ => .isTrue trivial

/-! ## The invariant -/

/-- `blocked` and `deleted` are the protection: a fetch older than an invalidation that has bumped
its key sees another epoch, and an entry older than an invalidation is about to be deleted by it. The
other fields keep them going. -/
structure Inv (w : CacheWorld D) : Prop where
  epoch_le : ∀ k, w.getEpoch k ≤ w.now
  began_le : ∀ v ∈ w.invalidations, v.beganAt ≤ w.moment
  counted : ∀ k, (w.inFlightKeys.lookup k).getD 0 = w.fetches.countP (Fetch.countedAt k)
  epoch_ge : ∀ f ∈ w.fetches, ∀ r ∈ f.phase.request, r.epochAtStart ≤ w.getEpoch f.key
  blocked : ∀ f ∈ w.fetches, ∀ r ∈ f.phase.request, ∀ v ∈ w.invalidations,
    v.Outdates f.key r.issuedAt → v.phase.listed = none → r.epochAtStart < w.getEpoch f.key
  deleted : ∀ k st, w.store.lookup k = some st → ∀ v ∈ w.invalidations, v.Outdates k st.issuedAt →
    v.WillDelete k

namespace Inv

variable {w : CacheWorld D} {i : ℕ} {f : Fetch D}

/-- A store with fewer entries. -/
theorem shrink (h : w.Inv) {store : Table (List Char) (Stored D)}
    (hsub : ∀ k st, store.lookup k = some st → w.store.lookup k = some st) :
    Inv { w with store } :=
  { h with deleted := fun k st hk => h.deleted k st (hsub k st hk) }

theorem del (h : w.Inv) (keys : List (List Char)) : (w.del keys).Inv := by
  refine h.shrink fun k st hk => ?_
  have hlookup := w.lookup_del keys k
  by_cases hmem : k ∈ keys
  · rw [if_pos hmem] at hlookup
    exact absurd (hlookup.symm.trans hk) nofun
  · rw [if_neg hmem] at hlookup
    exact hlookup.symm.trans hk

/-- An entry that no later invalidation has missed may be written. -/
theorem set (h : w.Inv) {key : List Char} {value : Stored D} {result : SetResult}
    (hsafe : result = .ok → ∀ v ∈ w.invalidations, v.Outdates key value.issuedAt → v.WillDelete key) :
    (w.set key value result).Inv := by
  rw [w.set_eq]
  refine { h with deleted := fun k st hk => ?_ }
  change (w.set key value result).store.lookup k = some st at hk
  rw [w.lookup_set] at hk
  split at hk
  · rename_i hok
    obtain ⟨hres, rfl⟩ := hok
    rw [Option.some.injEq] at hk
    subst hk
    exact hsafe hres
  · exact h.deleted k st hk

theorem countP_setPhase (hf : w.fetches[i]? = some f) (phase : FetchPhase D) (k : List Char) :
    (w.setPhase i phase).fetches.countP (Fetch.countedAt k)
        + (if f.phase.inFlight = true ∧ f.key = k then 1 else 0)
      = w.fetches.countP (Fetch.countedAt k)
        + (if phase.inFlight = true ∧ f.key = k then 1 else 0) := by
  have hcount := countP_modify hf (fun g => { g with phase }) (Fetch.countedAt k)
  simp only [Fetch.countedAt, Bool.and_eq_true, decide_eq_true_eq] at hcount
  exact hcount

/-- A fetch moves on without entering the network. -/
theorem setPhase (h : w.Inv) (hf : w.fetches[i]? = some f) {phase : FetchPhase D}
    (hflight : phase.inFlight = f.phase.inFlight) (hphase : phase.request = none) :
    (w.setPhase i phase).Inv where
  epoch_le := h.epoch_le
  began_le := h.began_le
  counted k := by
    have hcount := countP_setPhase hf phase k
    rw [hflight, Nat.add_right_cancel_iff] at hcount
    exact (h.counted k).trans hcount.symm
  epoch_ge g hg r hr := by
    rcases mem_modify hf hg with hmem | rfl
    · exact h.epoch_ge g hmem r hr
    · exact absurd (hphase.symm.trans hr) nofun
  blocked g hg r hr := by
    rcases mem_modify hf hg with hmem | rfl
    · exact h.blocked g hmem r hr
    · exact absurd (hphase.symm.trans hr) nofun
  deleted := h.deleted

/-- A fetch enters the network. Every invalidation so far is older than its request. -/
theorem issue (h : w.Inv) (hf : w.fetches[i]? = some f) (hflight : f.phase.inFlight = false) :
    (w.issue i f.key).Inv where
  epoch_le := h.epoch_le
  began_le := h.began_le
  counted k := by
    have hcount := countP_setPhase hf (.fetching (w.getEpoch f.key) w.moment) k
    have hlookup := w.lookup_addInFlight f.key k
    have hold := h.counted k
    refine hlookup.trans ?_
    change _ = (w.setPhase i _).fetches.countP _
    have hnew : (FetchPhase.fetching (D := D) (w.getEpoch f.key) w.moment).inFlight = true := rfl
    simp only [hflight, hnew, Bool.false_eq_true, false_and, true_and, if_false] at hcount
    omega
  epoch_ge g hg r hr := by
    rcases mem_modify hf hg with hmem | rfl
    · exact h.epoch_ge g hmem r hr
    · obtain rfl := Option.some.inj hr
      exact le_refl (w.getEpoch f.key)
  blocked g hg r hr v hv hout := by
    rcases mem_modify hf hg with hmem | rfl
    · exact h.blocked g hmem r hr v hv hout
    · obtain rfl := Option.some.inj hr
      exact absurd hout.2 (h.began_le v hv).not_gt
  deleted := h.deleted

/-- A fetch has done everything but its `finally` block, which takes it out of the count. -/
theorem settle (h : w.Inv) (hf : w.fetches[i]? = some f) (hphase : f.phase = .settling) :
    ((w.removeInFlight f.key).setPhase i .done).Inv := by
  rw [w.removeInFlight_eq]
  refine ⟨h.epoch_le, h.began_le, fun k => ?_, fun g hg r hr => ?_, fun g hg r hr => ?_,
    h.deleted⟩
  · have hcount := countP_setPhase hf .done k
    have hlookup := w.lookup_removeInFlight f.key k
    have hold := h.counted k
    refine hlookup.trans ?_
    change _ = (w.setPhase i .done).fetches.countP _
    simp only [hphase, FetchPhase.inFlight, Bool.false_eq_true, false_and, true_and, if_false]
      at hcount
    omega
  · rcases mem_modify hf hg with hmem | rfl
    · exact h.epoch_ge g hmem r hr
    · exact absurd hr nofun
  · rcases mem_modify hf hg with hmem | rfl
    · exact h.blocked g hmem r hr
    · exact absurd hr nofun

/-- A request under way is counted. -/
theorem inFlight_of_request {phase : FetchPhase D} {r : NetworkRequest} (hr : r ∈ phase.request) :
    phase.inFlight = true := by
  cases phase <;> first | rfl | exact absurd hr nofun

/-- A call that has not entered the network is counted nowhere. -/
theorem addFetch (h : w.Inv) (hphase : f.phase.inFlight = false) :
    Inv { w with fetches := w.fetches ++ [f] } := by
  have hold : ∀ g ∈ w.fetches ++ [f], ∀ r ∈ g.phase.request, g ∈ w.fetches := by
    intro g hg r hr
    rcases List.mem_append.mp hg with hmem | hmem
    · exact hmem
    · rw [List.mem_singleton] at hmem
      rw [← hmem, inFlight_of_request hr] at hphase
      exact absurd hphase nofun
  refine { h with counted := fun k => ?_, epoch_ge := fun g hg r hr => ?_,
                  blocked := fun g hg r hr => ?_ }
  · have hf : Fetch.countedAt k f = false := by simp [Fetch.countedAt, hphase]
    simpa [hf] using h.counted k
  · exact h.epoch_ge g (hold g hg r hr) r hr
  · exact h.blocked g (hold g hg r hr) r hr

/-- A fetch that is under way has its key among the keys in flight. -/
theorem mem_inFlightKeys (h : w.Inv) (hf : f ∈ w.fetches) (hflight : f.phase.inFlight = true) :
    f.key ∈ w.inFlightKeys.keys := by
  have hpos : 0 < w.fetches.countP (Fetch.countedAt f.key) := by
    refine List.countP_pos_iff.mpr ⟨f, hf, ?_⟩
    simp [Fetch.countedAt, hflight]
  rw [← h.counted f.key] at hpos
  rw [← AList.mem_keys, ← AList.lookup_isSome]
  cases hl : w.inFlightKeys.lookup f.key with
  | none => simp [hl] at hpos
  | some n => rfl

/-- A fetch sees the bump of its key, since the clock has moved on from the epoch it has noted. -/
theorem lt_now (h : w.Inv) (hf : f ∈ w.fetches) {r : NetworkRequest} (hr : r ∈ f.phase.request)
    {beganAt : ℕ} (hmoved : w.ClockMoved f.key beganAt) (hlater : r.issuedAt < beganAt) :
    r.epochAtStart < w.now := by
  have hge := h.epoch_ge f hf r hr
  have hle := h.epoch_le f.key
  by_cases heq : r.epochAtStart = w.getEpoch f.key
  · have hne := hmoved f hf rfl r hr heq hlater
    omega
  · omega

/-- One invalidation moves on: it bumps the epochs of `keys` and deletes entries. -/
theorem bump (h : w.Inv) {w' : CacheWorld D} (keys : List (List Char)) (v : Invalidation)
    (hsame : w' = { w with
      store := w'.store, invalidationEpochs := w'.invalidationEpochs,
      invalidations := w'.invalidations })
    (hepoch : ∀ k, w'.getEpoch k = if k ∈ keys then w.now else w.getEpoch k)
    (hsub : ∀ k st, w'.store.lookup k = some st → w.store.lookup k = some st)
    (hinv : ∀ u ∈ w'.invalidations, u ∈ w.invalidations ∨ u = v)
    (hbegan : v.beganAt ≤ w.moment)
    (hblocked : ∀ f ∈ w.fetches, ∀ r ∈ f.phase.request, v.Outdates f.key r.issuedAt →
      r.epochAtStart < w'.getEpoch f.key)
    (hdeleted : ∀ k st, w'.store.lookup k = some st → ¬ v.Outdates k st.issuedAt) : w'.Inv := by
  have hfetches : w'.fetches = w.fetches := by rw [hsame]
  have hnow : w'.now = w.now := by rw [hsame]
  have hgrow : ∀ k, w.getEpoch k ≤ w'.getEpoch k ∧ w'.getEpoch k ≤ w.now := by
    intro k
    have hle := h.epoch_le k
    rw [hepoch k]
    split <;> omega
  refine ⟨fun k => hnow ▸ (hgrow k).2, fun u hu => ?_, fun k => ?_, fun f hf r hr => ?_,
    fun f hf r hr u hu hout hbumped => ?_, fun k st hk u hu hout => ?_⟩
  · have hmoment : w'.moment = w.moment := by rw [hsame]
    rw [hmoment]
    rcases hinv u hu with hmem | rfl
    · exact h.began_le u hmem
    · exact hbegan
  · have hkeys : w'.inFlightKeys = w.inFlightKeys := by rw [hsame]
    rw [hkeys, hfetches]
    exact h.counted k
  · rw [hfetches] at hf
    exact (h.epoch_ge f hf r hr).trans (hgrow f.key).1
  · rw [hfetches] at hf
    rcases hinv u hu with hmem | rfl
    · exact (h.blocked f hf r hr u hmem hout hbumped).trans_le (hgrow f.key).1
    · exact hblocked f hf r hr hout
  · rcases hinv u hu with hmem | rfl
    · exact h.deleted k st (hsub k st hk) u hmem hout
    · exact absurd hout (hdeleted k st hk)

/-- `invalidateCache` up to its `await`. -/
theorem invalidateCache (h : w.Inv) {key : List Char} (hmoved : w.ClockMoved key w.moment) :
    Inv { (w.bumpEpoch key).del [key] with
      invalidations := w.invalidations ++ [⟨(· = key), w.moment, .deleting⟩] } := by
  have hepoch : ∀ k, (w.bumpEpoch key).getEpoch k = if k ∈ [key] then w.now else w.getEpoch k := by
    intro k
    rw [getEpoch_bumpEpoch]
    simp
  have hstore : ∀ k, ((w.bumpEpoch key).del [key]).store.lookup k
      = if k ∈ [key] then none else w.store.lookup k := (w.bumpEpoch key).lookup_del [key]
  refine h.bump [key] ⟨(· = key), w.moment, .deleting⟩ rfl hepoch ?_ ?_ le_rfl ?_ ?_
  · intro k st hk
    have hk' := (hstore k).symm.trans hk
    split at hk'
    · exact absurd hk' nofun
    · exact hk'
  · intro u hu
    rcases List.mem_append.mp hu with hmem | hmem
    · exact .inl hmem
    · exact .inr (List.mem_singleton.mp hmem)
  · intro f hf r hr hout
    have hkey : f.key = key := of_decide_eq_true hout.1
    subst hkey
    refine (h.lt_now hf hr hmoved hout.2).trans_eq ?_
    exact ((hepoch f.key).trans (if_pos (List.mem_singleton.mpr rfl))).symm
  · intro k st hk hout
    have hkey : k = key := of_decide_eq_true hout.1
    have hk' := (hstore k).symm.trans hk
    rw [if_pos (List.mem_singleton.mpr hkey)] at hk'
    exact absurd hk' nofun

/-- A scoped invalidator up to `await keys`: all it covers of the store is listed. -/
theorem listKeys (h : w.Inv) (covers : List Char → Bool) : (w.listKeys covers).Inv := by
  have hinv : ∀ u ∈ (w.listKeys covers).invalidations, u ∈ w.invalidations ∨
      u = ⟨covers, w.moment, .listing ((w.entries.map Prod.fst).filter covers)⟩ := by
    intro u hu
    rcases List.mem_append.mp hu with hmem | hmem
    · exact .inl hmem
    · exact .inr (List.mem_singleton.mp hmem)
  refine ⟨h.epoch_le, fun u hu => ?_, h.counted, h.epoch_ge, fun f hf r hr u hu hout hbumped => ?_,
    fun k st hk u hu hout => ?_⟩
  · rcases hinv u hu with hmem | rfl
    · exact h.began_le u hmem
    · exact le_rfl
  · rcases hinv u hu with hmem | rfl
    · exact h.blocked f hf r hr u hmem hout hbumped
    · exact absurd hbumped nofun
  · rcases hinv u hu with hmem | rfl
    · exact h.deleted k st hk u hmem hout
    · refine ⟨_, rfl, List.mem_filter.mpr ⟨?_, hout.1⟩⟩
      exact List.mem_map.mpr ⟨(k, st), w.mem_entries_iff.mpr hk, rfl⟩

/-- An invalidation goes on after its `await`. -/
theorem resumeInvalidation (h : w.Inv) {v : Invalidation} {w' : CacheWorld D}
    (hv : w.invalidations[i]? = some v)
    (hmoved : ∀ keys ∈ v.phase.listed, ∀ k ∈ w.toBump v keys, w.ClockMoved k v.beganAt)
    (hw' : w.resumeInvalidation i v = some w') : w'.Inv := by
  have hmem : v ∈ w.invalidations := List.mem_of_getElem? hv
  unfold CacheWorld.resumeInvalidation at hw'
  split at hw'
  · -- the keys arrive: bump, then delete
    rename_i keys hphase
    have hlisted : v.phase.listed = some keys := by rw [hphase]; rfl
    rw [Option.some.injEq] at hw'
    subst hw'
    obtain ⟨hfold, hepoch⟩ := w.foldl_bumpEpoch (w.toBump v keys)
    have hstore : ∀ k, (((w.toBump v keys).foldl bumpEpoch w).del keys).store.lookup k
        = if k ∈ keys then none else w.store.lookup k := by
      intro k
      rw [lookup_del, hfold]
    -- what is left in the store is under a key that was not deleted
    have hsub : ∀ k st, (((w.toBump v keys).foldl bumpEpoch w).del keys).store.lookup k = some st →
        k ∉ keys ∧ w.store.lookup k = some st := by
      intro k st hk
      have hk' := (hstore k).symm.trans hk
      by_cases hkeys : k ∈ keys
      · rw [if_pos hkeys] at hk'
        exact absurd hk' nofun
      · rw [if_neg hkeys] at hk'
        exact ⟨hkeys, hk'⟩
    refine h.bump (w.toBump v keys) { v with phase := .deleting } ?_ hepoch
      (fun k st hk => (hsub k st hk).2) (fun u hu => ?_) (h.began_le v hmem) ?_ ?_
    · rw [hfold]
      rfl
    · rw [hfold] at hu
      exact mem_modify hv hu
    · intro f hf r hr hout
      have hkey : f.key ∈ w.toBump v keys := by
        refine List.mem_append.mpr (.inr (List.mem_filter.mpr ⟨?_, hout.1⟩))
        exact h.mem_inFlightKeys hf (inFlight_of_request hr)
      refine (h.lt_now hf hr (hmoved keys hlisted f.key hkey) hout.2).trans_eq ?_
      exact ((hepoch f.key).trans (if_pos hkey)).symm
    · intro k st hk hout
      obtain ⟨keys', hlist, hk'⟩ := h.deleted k st (hsub k st hk).2 v hmem hout
      rw [hlisted] at hlist
      exact (hsub k st hk).1 (Option.some.inj hlist ▸ hk')
  · -- the deletions are done
    rename_i hphase
    rw [Option.some.injEq] at hw'
    subst hw'
    have hbumped : v.phase.listed = none := by rw [hphase]; rfl
    refine h.bump [] { v with phase := .done } rfl (fun k => by simp; rfl)
      (fun k st hk => hk) (fun u hu => mem_modify hv hu) (h.began_le v hmem) ?_ ?_
    · intro f hf r hr hout
      exact h.blocked f hf r hr v hmem hout hbumped
    · intro k st hk hout
      obtain ⟨keys, hlist, -⟩ := h.deleted k st hk v hmem hout
      exact absurd (hbumped.symm.trans hlist) nofun
  · exact absurd hw' nofun

theorem startFetch (h : w.Inv) (kind : FetchKind) (key : List Char) (ttl : Int) (getFails : Bool) :
    (w.startFetch kind key ttl getFails).Inv := by
  have hread : Inv { w with
      fetches := w.fetches ++ [⟨kind, key, ttl, .reading (if getFails then none
        else (w.store.lookup key).map (·.entry))⟩] } := h.addFetch rfl
  unfold CacheWorld.startFetch
  dsimp only
  split
  · exact hread.issue (List.getElem?_concat_length) rfl
  · exact hread

theorem afterGet (h : w.Inv) (hf : w.fetches[i]? = some f) {entry : Option (CacheEntry D)}
    (hphase : f.phase = .reading entry) : (w.afterGet i f entry).Inv := by
  have hflight : f.phase.inFlight = false := by rw [hphase]; rfl
  unfold CacheWorld.afterGet
  split
  · exact h.issue hf hflight
  · split
    · exact h.setPhase hf hflight.symm rfl
    · split
      · exact h.setPhase hf hflight.symm rfl
      · exact h.issue hf hflight

theorem resumeFetch (h : w.Inv) (hf : w.fetches[i]? = some f) {w' : CacheWorld D}
    (hw' : w.resumeFetch i f = some w') : w'.Inv := by
  unfold CacheWorld.resumeFetch at hw'
  split at hw' <;> rename_i hphase
  · rw [Option.some.injEq] at hw'
    exact hw' ▸ h.afterGet hf hphase
  · rw [Option.some.injEq] at hw'
    subst hw'
    have hflight : f.phase.inFlight = false := by rw [hphase]; rfl
    split
    · exact h.setPhase hf hflight.symm rfl
    · exact h.issue hf hflight
  · rw [Option.some.injEq] at hw'
    subst hw'
    have hflight : f.phase.inFlight = true := by rw [hphase]; rfl
    unfold CacheWorld.afterSet
    split
    · exact h.setPhase hf hflight.symm rfl
    · -- a run of `evictIfNeeded` that nobody awaits starts here
      have hset : (w.setPhase i .settling).Inv := h.setPhase hf hflight.symm rfl
      exact { hset with }
  · rw [Option.some.injEq] at hw'
    subst hw'
    have hflight : f.phase.inFlight = true := by rw [hphase]; rfl
    exact (h.del _).setPhase hf hflight.symm rfl
  · rw [Option.some.injEq] at hw'
    exact hw' ▸ h.settle hf hphase
  all_goals exact absurd hw' nofun

/-- The answer of the network. An invalidation that has bumped the key stops the write, so the
condition is only about those that have listed their keys and not deleted them yet. -/
theorem afterNetwork (h : w.Inv) (hf : w.fetches[i]? = some f) {e a : ℕ}
    (hphase : f.phase = .fetching e a) (data : Option D) {result : SetResult}
    (hsafe : data.isSome = true → result = .ok → e = w.getEpoch f.key → w.Listed f.key a) :
    (w.afterNetwork i f e a data result).Inv := by
  have hr : f.phase.request = some ⟨e, a⟩ := by rw [hphase]; rfl
  have hflight : f.phase.inFlight = true := inFlight_of_request hr
  unfold CacheWorld.afterNetwork
  split
  · exact h.setPhase hf hflight.symm rfl
  · split
    · rename_i hepoch
      refine (h.set fun hok v hv hout => ?_).setPhase (by rwa [w.set_eq]) hflight.symm rfl
      cases hlisted : v.phase.listed with
      | none =>
        have hlt := h.blocked f (List.mem_of_getElem? hf) ⟨e, a⟩ hr v hv hout hlisted
        exact absurd hepoch hlt.ne'
      | some keys => exact ⟨keys, hlisted, hsafe rfl hok hepoch.symm v hv hout keys hlisted⟩
    · exact h.setPhase hf hflight.symm rfl

end Inv

/-! ## Every step keeps the invariant -/

theorem act_inv {w w' : CacheWorld D} {l : CacheStep D A V} (h : w.Inv) (hg : w.Undisturbed J l)
    (hact : w.act J l = some w') : w'.Inv := by
  cases l with
  | fetch kind command args ttl getFails =>
    rw [act, Option.some.injEq] at hact
    exact hact ▸ h.startFetch ..
  | resume i =>
    obtain ⟨f, hf, hw'⟩ := Option.bind_eq_some_iff.mp hact
    exact h.resumeFetch hf hw'
  | respond i data result =>
    obtain ⟨f, hf, hw'⟩ := Option.bind_eq_some_iff.mp hact
    unfold respondFetch at hw'
    split at hw'
    · rename_i e a hphase
      rw [Option.some.injEq] at hw'
      subst hw'
      refine h.afterNetwork hf hphase data fun hdata hok hepoch => ?_
      obtain ⟨d, rfl⟩ := Option.isSome_iff_exists.mp hdata
      -- the only writes are those of a fetch whose key kept its epoch
      subst hok
      exact hg f hf ⟨e, a⟩ (by rw [hphase]; rfl) hepoch
    · exact absurd hw' nofun
  | retry i result =>
    obtain ⟨f, hf, hw'⟩ := Option.bind_eq_some_iff.mp hact
    unfold retryFetch at hw'
    split at hw'
    · rename_i value hphase
      rw [Option.some.injEq] at hw'
      subst hw'
      have hflight : f.phase.inFlight = true := by rw [hphase]; rfl
      refine (h.set fun hok v hv hout => ?_).setPhase (by rwa [w.set_eq]) hflight.symm rfl
      subst hok
      obtain ⟨hkeys, hsome⟩ := hg f hf value (by rw [hphase]; rfl)
      obtain ⟨keys, hlisted⟩ := Option.isSome_iff_exists.mp (hsome v hv hout)
      exact ⟨keys, hlisted, hkeys v hv hout keys hlisted⟩
    · exact absurd hw' nofun
  | invalidateCache command args =>
    rw [act, Option.some.injEq] at hact
    exact hact ▸ h.invalidateCache hg
  | invalidateCacheByCommand | invalidateCacheByArgs =>
    rw [act, Option.some.injEq] at hact
    exact hact ▸ h.listKeys _
  | resumeInvalidation i =>
    obtain ⟨v, hv, hw'⟩ := Option.bind_eq_some_iff.mp hact
    exact h.resumeInvalidation hv (hg v hv) hw'
  | resumeEviction i =>
    obtain ⟨allEntries, -, hw'⟩ := Option.map_eq_some_iff.mp hact
    exact hw' ▸ { h.del (toEvict allEntries) with }
  | markAllStale => exact absurd hg id
  | writeStale i result => exact absurd hg id
  | clearAllCache =>
    rw [act, Option.some.injEq] at hact
    exact hact ▸ h.shrink fun k st hk => absurd hk (by simp)
  | tick ms =>
    rw [act, Option.some.injEq] at hact
    exact hact ▸ { h with epoch_le := fun k => (h.epoch_le k).trans (Nat.le_add_right ..) }

theorem step_inv {w w' : CacheWorld D} {l : CacheStep D A V} (h : w.Inv) (hg : w.Undisturbed J l)
    (hstep : w.step J l = some w') : w'.Inv := by
  obtain ⟨u, hact, rfl⟩ := Option.map_eq_some_iff.mp hstep
  have hu := act_inv J h hg hact
  exact { hu with began_le := fun v hv => (hu.began_le v hv).trans (Nat.le_succ _) }

theorem init_inv (store : Table (List Char) (Stored D)) (now : ℕ) : (init store now).Inv where
  epoch_le _ := Nat.zero_le _
  began_le := nofun
  counted _ := rfl
  epoch_ge := nofun
  blocked := nofun
  deleted _ _ _ := nofun

/-- Nothing that a completed invalidation covers has a request older than it. -/
def InvalidatedStayOut (w : CacheWorld D) : Prop :=
  ∀ v ∈ w.invalidations, v.phase = .done → ∀ key st, w.store.lookup key = some st →
    v.covers key = true → v.beganAt ≤ st.issuedAt

/-- Once an invalidation has completed, the store holds nothing it covers whose request is older, in
every run without the gaps. -/
theorem invalidated_entries_stay_out {store : Table (List Char) (Stored D)} {now : ℕ}
    {ls : List (CacheStep D A V)} {w : CacheWorld D} (h : run (step J) (init store now) ls = some w)
    (hg : Along (step J) (Undisturbed J) (init store now) ls) : w.InvalidatedStayOut := by
  have hinv : w.Inv := run_invariant_along (fun s l t hi hgl hst => step_inv J hi hgl hst)
    (init_inv store now) hg h
  intro v hv hdone key st hst hcovers
  by_contra hlt
  obtain ⟨keys, hlist, -⟩ := hinv.deleted key st hst v hv ⟨hcovers, by omega⟩
  rw [hdone] at hlist
  exact absurd hlist nofun

/-- A first load under way is invalidated by its command, and its answer is not stored. -/
def firstLoad : List (CacheStep ℕ Unit ℕ) :=
  [.fetch .cachedCommand ['c'] none 60000 false, .resume 0, .tick 5, .invalidateCacheByCommand ['c'],
    .resumeInvalidation 0, .respond 0 (some 7) .ok, .resumeInvalidation 0]

theorem firstLoad_stays_out : ∃ w, run (step emptyArgs) (init ∅ 1) firstLoad = some w ∧
    w.InvalidatedStayOut ∧ w.invalidations.map (·.phase) = [.done] := by
  have hg : Along (step emptyArgs) (Undisturbed emptyArgs) (init ∅ 1) firstLoad := by decide
  obtain ⟨w, hw, hphase⟩ : ∃ w, run (step emptyArgs) (init ∅ 1) firstLoad = some w ∧
      w.invalidations.map (·.phase) = [.done] := ⟨_, rfl, rfl⟩
  exact ⟨w, hw, invalidated_entries_stay_out emptyArgs hw hg, hphase⟩

/-- The answer of a first load is stored while the invalidator waits for the list of keys. -/
def listingRace : List (CacheStep ℕ Unit ℕ) :=
  [.fetch .cachedCommand ['c'] none 60000 false, .resume 0, .tick 5, .invalidateCacheByCommand ['c'],
    .respond 0 (some 7) .ok, .resumeInvalidation 0, .resumeInvalidation 0]

/-- Two invalidations in one millisecond, with a request between them. -/
def sameMillisecond : List (CacheStep ℕ Unit ℕ) :=
  [.invalidateCache ['c'] none, .fetch .cachedCommand ['c'] none 60000 false, .resume 0,
    .invalidateCache ['c'] none, .resumeInvalidation 1, .respond 0 (some 7) .ok]

/-- An invalidation between the `set` that meets the quota and the second one. -/
def quotaRetry : List (CacheStep ℕ Unit ℕ) :=
  [.fetch .cachedCommand ['c'] none 60000 false, .resume 0, .respond 0 (some 7) .quotaExceeded,
    .resume 0, .resume 0, .tick 5, .invalidateCache ['c'] none, .resumeInvalidation 0, .retry 0 .ok]

/-- An entry older than a completed invalidation that covers it. -/
theorem not_invalidatedStayOut {w : CacheWorld D} (key : List Char)
    (h : ∃ v ∈ w.invalidations, v.phase = .done ∧ v.covers key = true ∧
      ∃ st, w.store.lookup key = some st ∧ st.issuedAt < v.beganAt) : ¬ w.InvalidatedStayOut := by
  obtain ⟨v, hv, hdone, hcovers, st, hst, hlt⟩ := h
  intro hall
  have hle := hall v hv hdone key st hst hcovers
  omega

/-- Each of the three gaps lets an older fetch undo an invalidation. -/
theorem invalidation_undone :
    (∃ w, run (step emptyArgs) (init ∅ 1) listingRace = some w ∧ ¬ w.InvalidatedStayOut) ∧
      (∃ w, run (step emptyArgs) (init ∅ 1) sameMillisecond = some w ∧ ¬ w.InvalidatedStayOut) ∧
        ∃ w, run (step emptyArgs) (init ∅ 1) quotaRetry = some w ∧ ¬ w.InvalidatedStayOut := by
  refine ⟨⟨_, rfl, ?_⟩, ⟨_, rfl, ?_⟩, ⟨_, rfl, ?_⟩⟩
  · exact not_invalidatedStayOut ['c', ':'] (by decide)
  · exact not_invalidatedStayOut ['c', ':'] (by decide)
  · exact not_invalidatedStayOut ['c', ':'] (by decide)

end CacheWorld

end Builderbot.Staged
