import Builderbot.Staged.BrowserCache

/-!
# The timeline cache

The part of `apps/staged/src/lib/commands.ts` that keeps the timelines of branches in memory. A request
is a promise, and a promise is its number here. The body of a request is a loop over the values that
`cachedInvoke` yields: a cached one, one from the network, or both. What IndexedDB and the network
deliver is given with the steps.

Several requests for a branch can be under way, since a forced call starts one whatever is in flight.
A request writes only while it is the one in `inFlightTimelines`, and `timelines_latest_request_wins`
says that it is then the last one started after the last invalidation.
-/

namespace Builderbot.Staged

def TIMELINE_FRESH_MS : ℕ := 10000
def TIMELINE_CACHE_TTL : ℕ := 30000

/-- `TimelineCacheEntry`. -/
structure TimelineCacheEntry (T : Type*) where
  timeline : T
  fetchedAt : ℕ
deriving DecidableEq

/-- Where the body of a request stands. -/
inductive TimelinePhase (T : Type*) where
  /-- `cachedInvoke` waits for IndexedDB. -/
  | reading
  /-- `cachedInvoke` waits for the network. -/
  | fetching (isUsable : Bool)
  /-- `cachedInvoke` has yielded, and the body of the loop has not run yet. `more` says whether
  `cachedInvoke` goes on to the network afterwards. -/
  | yielded (entry : TimelineCacheEntry T) (more : Bool)
  /-- The loop is over, with the timeline to return or with an error; the callback of `finally` has
  not run yet. -/
  | finishing (result : Option T)
  | settled (result : Option T)
deriving DecidableEq

/-- The promise of the request is settled. -/
def TimelinePhase.isSettled {T : Type*} : TimelinePhase T → Bool
  | .settled _ => true
  | _ => false

/-- A request for the timeline of a branch. `timeline` is the local variable of its body. -/
structure TimelineRequest (B T : Type*) where
  branchId : B
  force : Bool
  timeline : Option T
  phase : TimelinePhase T
deriving DecidableEq

/-- What happened so far, for the sake of statements; the program keeps no such list. -/
inductive TimelineEvent (B T : Type*) where
  | started (branchId : B) (request : ℕ)
  | invalidated (branchId : B)
  | wrote (branchId : B) (request : ℕ) (entry : TimelineCacheEntry T)
deriving DecidableEq

/-- The maps of the module, the requests ever started, and the history. -/
structure TimelineWorld (B T : Type*) where
  timelineCache : Table B (TimelineCacheEntry T)
  inFlightTimelines : Table B ℕ := ∅
  requests : List (TimelineRequest B T) := []
  history : List (TimelineEvent B T) := []
  now : ℕ

/-- The promise that `getBranchTimeline` returns: one that is resolved, or that of a request. -/
inductive TimelinePromise (T : Type*) where
  | resolved (timeline : T)
  | request (r : ℕ)
deriving DecidableEq

/-- The steps of the system. -/
inductive TimelineStep (B T : Type*) where
  | getBranchTimeline (branchId : B) (force : Bool)
  | getBranchTimelineWithRevalidation (branchId : B)
  | invalidateBranchTimeline (branchId : B)
  | invalidateProjectBranchTimelines (branchIds : List B)
  /-- IndexedDB answers, with `none` when it has no entry or fails. -/
  | read (r : ℕ) (entry : Option (CacheEntry T))
  /-- The network answers, with `none` for an error. -/
  | respond (r : ℕ) (data : Option T)
  /-- The body of the loop runs on a value that was yielded. -/
  | loopBody (r : ℕ)
  /-- The callback of `finally` runs. -/
  | runFinally (r : ℕ)
  | tick (ms : ℕ)

namespace TimelineWorld

variable {B T : Type*} [DecidableEq B]

/-- The module after `seedTimelineCacheFromSnapshot`. -/
def init (seed : Table B (TimelineCacheEntry T)) (now : ℕ) : TimelineWorld B T :=
  { timelineCache := seed, now }

variable (isTauri : Bool) (w : TimelineWorld B T)

/-- The part of `getBranchTimeline` that starts a request: the body runs up to its first `await`, and
the promise of the request is put in flight. -/
def startRequest (branchId : B) (force : Bool) : TimelineWorld B T :=
  let phase := if isTauri || force then .fetching false else .reading
  { w with
    inFlightTimelines := w.inFlightTimelines.insert branchId w.requests.length
    requests := w.requests ++ [⟨branchId, force, none, phase⟩]
    history := w.history ++ [.started branchId w.requests.length] }

/-- `getBranchTimeline`. -/
def getBranchTimeline (branchId : B) (force : Bool) : TimelineWorld B T × TimelinePromise T :=
  let fresh := (w.startRequest isTauri branchId force, .request w.requests.length)
  if force then fresh
  else
    match w.timelineCache.lookup branchId with
    | some cached => (w, .resolved cached.timeline)
    | none =>
      match w.inFlightTimelines.lookup branchId with
      | some existing => (w, .request existing)
      | none => fresh

/-- `getBranchTimelineWithRevalidation`, with `cached` and `fresh` of its result. -/
def getBranchTimelineWithRevalidation (branchId : B) :
    TimelineWorld B T × Option T × Option (TimelinePromise T) :=
  match w.timelineCache.lookup branchId with
  | none =>
    let (w', promise) := w.getBranchTimeline isTauri branchId false
    (w', none, some promise)
  | some entry =>
    if (w.now : Int) - entry.fetchedAt < TIMELINE_FRESH_MS then (w, some entry.timeline, none)
    else
      let (w', promise) := w.getBranchTimeline isTauri branchId true
      (w', some entry.timeline, some promise)

/-- `invalidateBranchTimeline`. -/
def invalidateBranchTimeline (branchId : B) : TimelineWorld B T :=
  { w with
    timelineCache := w.timelineCache.erase branchId
    inFlightTimelines := w.inFlightTimelines.erase branchId
    history := w.history ++ [.invalidated branchId] }

/-- Change a request. -/
def setRequest (r : ℕ) (req : TimelineRequest B T) : TimelineWorld B T :=
  { w with requests := w.requests.set r req }

/-- `cachedInvoke` goes on after reading IndexedDB. -/
def afterRead (r : ℕ) (req : TimelineRequest B T) (entry : Option (CacheEntry T)) :
    TimelineWorld B T :=
  match entry.filter (·.isUsable) with
  | none => w.setRequest r { req with phase := .fetching false }
  | some e =>
    let more := !e.isFresh TIMELINE_CACHE_TTL w.now
    w.setRequest r { req with phase := .yielded ⟨e.data, e.fetchedAt⟩ more }

/-- `cachedInvoke` goes on after the network: an error ends the loop, and is thrown unless a usable
entry was yielded before. -/
def afterNetwork (r : ℕ) (req : TimelineRequest B T) (isUsable : Bool) (data : Option T) :
    TimelineWorld B T :=
  match data with
  | some data => w.setRequest r { req with phase := .yielded ⟨data, w.now⟩ false }
  | none =>
    let result := if req.force || !isUsable then none else req.timeline
    w.setRequest r { req with phase := .finishing result }

/-- The body of the loop: the value is written if the request is the one in flight. -/
def loopBody (r : ℕ) (req : TimelineRequest B T) (entry : TimelineCacheEntry T) (more : Bool) :
    TimelineWorld B T :=
  let phase := if more then .fetching true else .finishing (some entry.timeline)
  let w' := w.setRequest r { req with timeline := some entry.timeline, phase }
  if w.inFlightTimelines.lookup req.branchId = some r then
    { w' with
      timelineCache := w.timelineCache.insert req.branchId entry
      history := w.history ++ [.wrote req.branchId r entry] }
  else w'

/-- The callback of `finally`, after which the promise of the request is settled. -/
def runFinally (r : ℕ) (req : TimelineRequest B T) (result : Option T) : TimelineWorld B T :=
  let w' := w.setRequest r { req with phase := .settled result }
  if w.inFlightTimelines.lookup req.branchId = some r then
    { w' with inFlightTimelines := w.inFlightTimelines.erase req.branchId }
  else w'

/-- One step, `none` when it is not possible. -/
def step : TimelineStep B T → Option (TimelineWorld B T)
  | .getBranchTimeline branchId force => some (w.getBranchTimeline isTauri branchId force).1
  | .getBranchTimelineWithRevalidation branchId =>
    some (w.getBranchTimelineWithRevalidation isTauri branchId).1
  | .invalidateBranchTimeline branchId => some (w.invalidateBranchTimeline branchId)
  | .invalidateProjectBranchTimelines branchIds => some (branchIds.foldl invalidateBranchTimeline w)
  | .read r entry =>
    w.requests[r]?.bind fun req =>
      match req.phase with
      | .reading => some (w.afterRead r req entry)
      | _ => none
  | .respond r data =>
    w.requests[r]?.bind fun req =>
      match req.phase with
      | .fetching isUsable => some (w.afterNetwork r req isUsable data)
      | _ => none
  | .loopBody r =>
    w.requests[r]?.bind fun req =>
      match req.phase with
      | .yielded entry more => some (w.loopBody r req entry more)
      | _ => none
  | .runFinally r =>
    w.requests[r]?.bind fun req =>
      match req.phase with
      | .finishing result => some (w.runFinally r req result)
      | _ => none
  | .tick ms => some { w with now := w.now + ms }

/-! ## The history -/

/-- The request that was started last for the branch, if no invalidation came after it. -/
def latestRequest (b : B) (history : List (TimelineEvent B T)) : Option ℕ :=
  history.foldl (fun latest e =>
    match e with
    | .started branchId r => if branchId = b then some r else latest
    | .invalidated branchId => if branchId = b then none else latest
    | .wrote .. => latest) none

/-- What the writes and the invalidations of the history leave in the cache. -/
def cachedEntry (seed : Table B (TimelineCacheEntry T)) (b : B)
    (history : List (TimelineEvent B T)) : Option (TimelineCacheEntry T) :=
  history.foldl (fun cached e =>
    match e with
    | .started .. => cached
    | .invalidated branchId => if branchId = b then none else cached
    | .wrote branchId _ entry => if branchId = b then some entry else cached) (seed.lookup b)

/-- Every write comes from the request that was the last one at its time. -/
def WritesLatest (history : List (TimelineEvent B T)) : Prop :=
  ∀ pre post b r entry, history = pre ++ .wrote b r entry :: post → latestRequest b pre = some r

section History

variable {history : List (TimelineEvent B T)} {seed : Table B (TimelineCacheEntry T)} {b branchId : B}

/-- A request that starts is the latest of its branch. -/
theorem latestRequest_started (r : ℕ) :
    latestRequest b (history ++ [.started branchId r])
      = if branchId = b then some r else latestRequest b history := by
  rw [latestRequest, List.foldl_append]
  rfl

/-- After an invalidation no request is the latest. -/
theorem latestRequest_invalidated :
    latestRequest b (history ++ [.invalidated branchId])
      = if branchId = b then none else latestRequest b history := by
  rw [latestRequest, List.foldl_append]
  rfl

/-- A write does not change which request is the latest. -/
theorem latestRequest_wrote (r : ℕ) (entry : TimelineCacheEntry T) :
    latestRequest b (history ++ [.wrote branchId r entry]) = latestRequest b history := by
  rw [latestRequest, List.foldl_append]
  rfl

theorem cachedEntry_started (r : ℕ) :
    cachedEntry seed b (history ++ [.started branchId r]) = cachedEntry seed b history := by
  rw [cachedEntry, List.foldl_append]
  rfl

/-- An invalidation removes the entry. -/
theorem cachedEntry_invalidated :
    cachedEntry seed b (history ++ [.invalidated branchId])
      = if branchId = b then none else cachedEntry seed b history := by
  rw [cachedEntry, List.foldl_append]
  rfl

/-- A write replaces the entry. -/
theorem cachedEntry_wrote (r : ℕ) (entry : TimelineCacheEntry T) :
    cachedEntry seed b (history ++ [.wrote branchId r entry])
      = if branchId = b then some entry else cachedEntry seed b history := by
  rw [cachedEntry, List.foldl_append]
  rfl

/-- An event keeps the rule if it is not a write, or one of the latest request. -/
theorem WritesLatest.concat {e : TimelineEvent B T} (h : WritesLatest history)
    (he : ∀ b r entry, e = .wrote b r entry → latestRequest b history = some r) :
    WritesLatest (history ++ [e]) := by
  intro pre post b r entry heq
  rcases List.eq_nil_or_concat post with rfl | ⟨post, x, rfl⟩
  · obtain ⟨rfl, hlast⟩ := List.append_inj' heq rfl
    exact he b r entry (List.singleton_inj.mp hlast)
  · rw [List.concat_eq_append, ← List.cons_append, ← List.append_assoc] at heq
    exact h pre post b r entry (List.append_inj' heq rfl).1

end History

/-! ## The invariant -/

/-- A request in flight is the latest one for its branch and is not settled; the writes so far came
from the latest request and account for the cache. -/
structure Inv (seed : Table B (TimelineCacheEntry T)) (w : TimelineWorld B T) : Prop where
  inFlight : ∀ b r, w.inFlightTimelines.lookup b = some r → latestRequest b w.history = some r ∧
    ∃ req, w.requests[r]? = some req ∧ req.branchId = b ∧ req.phase.isSettled = false
  writes : WritesLatest w.history
  cache : ∀ b, w.timelineCache.lookup b = cachedEntry seed b w.history

namespace Inv

variable {seed : Table B (TimelineCacheEntry T)} {w : TimelineWorld B T} {r : ℕ}
  {req : TimelineRequest B T}

/-- A request that starts takes the place of another one in flight. -/
theorem startRequest (h : w.Inv seed) (branchId : B) (force : Bool) :
    (w.startRequest isTauri branchId force).Inv seed where
  inFlight b r hr := by
    by_cases hb : b = branchId
    · subst hb
      have hr' : some w.requests.length = some r := (AList.lookup_insert _).symm.trans hr
      obtain rfl := Option.some.inj hr'
      refine ⟨(latestRequest_started _).trans (if_pos rfl), _, List.getElem?_concat_length, rfl, ?_⟩
      split <;> rfl
    · have hr' : w.inFlightTimelines.lookup b = some r := (AList.lookup_insert_ne hb).symm.trans hr
      obtain ⟨hlatest, req, hreq, hrest⟩ := h.inFlight b r hr'
      refine ⟨?_, req, ?_, hrest⟩
      · exact (latestRequest_started _).trans ((if_neg (Ne.symm hb)).trans hlatest)
      · exact (List.getElem?_append_left (List.getElem?_eq_some_iff.mp hreq).1).trans hreq
  writes := h.writes.concat nofun
  cache b := (h.cache b).trans (cachedEntry_started _).symm

/-- A call returns what is cached or in flight, or starts a request. -/
theorem getBranchTimeline (h : w.Inv seed) (branchId : B) (force : Bool) :
    (w.getBranchTimeline isTauri branchId force).1.Inv seed := by
  unfold TimelineWorld.getBranchTimeline
  dsimp only
  split
  · exact h.startRequest isTauri branchId force
  · split
    · exact h
    · split
      · exact h
      · exact h.startRequest isTauri branchId force

/-- A stale entry is returned and renewed behind it. -/
theorem getBranchTimelineWithRevalidation (h : w.Inv seed) (branchId : B) :
    (w.getBranchTimelineWithRevalidation isTauri branchId).1.Inv seed := by
  unfold TimelineWorld.getBranchTimelineWithRevalidation
  split
  · exact h.getBranchTimeline isTauri branchId false
  · split
    · exact h
    · exact h.getBranchTimeline isTauri branchId true

/-- With the entry goes the request in flight, which may not write any more. -/
theorem invalidateBranchTimeline (h : w.Inv seed) (branchId : B) :
    (w.invalidateBranchTimeline branchId).Inv seed where
  inFlight b r hr := by
    by_cases hb : b = branchId
    · subst hb
      exact absurd ((AList.lookup_erase _ _).symm.trans hr) nofun
    · have hr' : w.inFlightTimelines.lookup b = some r := (AList.lookup_erase_ne hb).symm.trans hr
      obtain ⟨hlatest, hreq⟩ := h.inFlight b r hr'
      exact ⟨latestRequest_invalidated.trans ((if_neg (Ne.symm hb)).trans hlatest), hreq⟩
  writes := h.writes.concat nofun
  cache b := by
    refine Eq.trans ?_ cachedEntry_invalidated.symm
    by_cases hb : b = branchId
    · subst hb
      exact (AList.lookup_erase _ _).trans (if_pos rfl).symm
    · exact (AList.lookup_erase_ne hb).trans ((h.cache b).trans (if_neg (Ne.symm hb)).symm)

/-- Several branches are invalidated one by one. -/
theorem foldl_invalidate (h : w.Inv seed) (branchIds : List B) :
    (branchIds.foldl TimelineWorld.invalidateBranchTimeline w).Inv seed := by
  induction branchIds generalizing w with
  | nil => exact h
  | cons b branchIds ih => exact ih (h.invalidateBranchTimeline b)

/-- A request moves on, and stays with its branch; if it is settled then it is not in flight. -/
theorem setRequest (h : w.Inv seed) (hreq : w.requests[r]? = some req) {req' : TimelineRequest B T}
    (hbranch : req'.branchId = req.branchId)
    (hsettled : req'.phase.isSettled = false ∨
      w.inFlightTimelines.lookup req.branchId ≠ some r) :
    (w.setRequest r req').Inv seed where
  inFlight b r' hr' := by
    obtain ⟨hlatest, old, hold, hb, hphase⟩ := h.inFlight b r' hr'
    refine ⟨hlatest, ?_⟩
    have hlt : r < w.requests.length := (List.getElem?_eq_some_iff.mp hreq).1
    by_cases hr : r = r'
    · subst hr
      obtain rfl := Option.some.inj (hreq.symm.trans hold)
      refine ⟨req', List.getElem?_set_self hlt, hbranch.trans hb, ?_⟩
      rcases hsettled with hset | hset
      · exact hset
      · exact absurd (hb ▸ hr') hset
    · exact ⟨old, (List.getElem?_set_ne hr).trans hold, hb, hphase⟩
  writes := h.writes
  cache := h.cache

/-- The read of IndexedDB has ended. -/
theorem afterRead (h : w.Inv seed) (hreq : w.requests[r]? = some req)
    (entry : Option (CacheEntry T)) : (w.afterRead r req entry).Inv seed := by
  unfold TimelineWorld.afterRead
  split
  · exact h.setRequest hreq rfl (.inl rfl)
  · exact h.setRequest hreq rfl (.inl rfl)

/-- The network has answered, or failed. -/
theorem afterNetwork (h : w.Inv seed) (hreq : w.requests[r]? = some req) (isUsable : Bool)
    (data : Option T) : (w.afterNetwork r req isUsable data).Inv seed := by
  unfold TimelineWorld.afterNetwork
  split
  · exact h.setRequest hreq rfl (.inl rfl)
  · exact h.setRequest hreq rfl (.inl rfl)

/-- The write of the loop body passes the test for the request in flight, which is the latest one. -/
theorem loopBody (h : w.Inv seed) (hreq : w.requests[r]? = some req) (entry : TimelineCacheEntry T)
    (more : Bool) : (w.loopBody r req entry more).Inv seed := by
  have hmoved : (w.setRequest r { req with
      timeline := some entry.timeline
      phase := if more then .fetching true else .finishing (some entry.timeline) }).Inv seed := by
    refine h.setRequest hreq rfl (.inl ?_)
    cases more <;> rfl
  unfold TimelineWorld.loopBody
  dsimp only
  split
  · rename_i hflight
    refine ⟨fun b r' hr' => ?_, ?_, fun b => ?_⟩
    · obtain ⟨hlatest, hrest⟩ := hmoved.inFlight b r' hr'
      exact ⟨(latestRequest_wrote ..).trans hlatest, hrest⟩
    · refine h.writes.concat fun b r' entry' heq => ?_
      obtain ⟨rfl, rfl, rfl⟩ := TimelineEvent.wrote.inj heq
      exact (h.inFlight _ _ hflight).1
    · refine Eq.trans ?_ (cachedEntry_wrote ..).symm
      by_cases hb : b = req.branchId
      · subst hb
        exact (AList.lookup_insert _).trans (if_pos rfl).symm
      · exact (AList.lookup_insert_ne hb).trans ((h.cache b).trans (if_neg (Ne.symm hb)).symm)
  · exact hmoved

/-- `finally` clears the place in flight only if the request still holds it. -/
theorem runFinally (h : w.Inv seed) (hreq : w.requests[r]? = some req) (result : Option T) :
    (w.runFinally r req result).Inv seed := by
  unfold TimelineWorld.runFinally
  dsimp only
  split
  · -- the request leaves the map before its promise is settled
    have hout : Inv seed { w with inFlightTimelines := w.inFlightTimelines.erase req.branchId } := by
      refine { h with inFlight := fun b r' hr' => ?_ }
      by_cases hb : b = req.branchId
      · subst hb
        exact absurd ((AList.lookup_erase _ _).symm.trans hr') nofun
      · exact h.inFlight b r' ((AList.lookup_erase_ne hb).symm.trans hr')
    refine hout.setRequest hreq rfl (.inr ?_)
    exact fun hr => absurd ((AList.lookup_erase _ _).symm.trans hr) nofun
  · rename_i hflight
    exact h.setRequest hreq rfl (.inr hflight)

end Inv

/-- One case for each step: a write is the only one that needs the place in flight. -/
theorem step_inv {seed : Table B (TimelineCacheEntry T)} {w w' : TimelineWorld B T}
    {l : TimelineStep B T} (h : w.Inv seed) (hstep : w.step isTauri l = some w') : w'.Inv seed := by
  cases l with
  | getBranchTimeline branchId force =>
    rw [step, Option.some.injEq] at hstep
    exact hstep ▸ h.getBranchTimeline isTauri branchId force
  | getBranchTimelineWithRevalidation branchId =>
    rw [step, Option.some.injEq] at hstep
    exact hstep ▸ h.getBranchTimelineWithRevalidation isTauri branchId
  | invalidateBranchTimeline branchId =>
    rw [step, Option.some.injEq] at hstep
    exact hstep ▸ h.invalidateBranchTimeline branchId
  | invalidateProjectBranchTimelines branchIds =>
    rw [step, Option.some.injEq] at hstep
    exact hstep ▸ h.foldl_invalidate branchIds
  | read r entry =>
    obtain ⟨req, hreq, hw'⟩ := Option.bind_eq_some_iff.mp hstep
    split at hw'
    · exact Option.some.inj hw' ▸ h.afterRead hreq entry
    · exact absurd hw' nofun
  | respond r data =>
    obtain ⟨req, hreq, hw'⟩ := Option.bind_eq_some_iff.mp hstep
    split at hw'
    · exact Option.some.inj hw' ▸ h.afterNetwork hreq _ data
    · exact absurd hw' nofun
  | loopBody r =>
    obtain ⟨req, hreq, hw'⟩ := Option.bind_eq_some_iff.mp hstep
    split at hw'
    · exact Option.some.inj hw' ▸ h.loopBody hreq _ _
    · exact absurd hw' nofun
  | runFinally r =>
    obtain ⟨req, hreq, hw'⟩ := Option.bind_eq_some_iff.mp hstep
    split at hw'
    · exact Option.some.inj hw' ▸ h.runFinally hreq _
    · exact absurd hw' nofun
  | tick ms =>
    rw [step, Option.some.injEq] at hstep
    exact hstep ▸ { h with }

theorem init_inv (seed : Table B (TimelineCacheEntry T)) (now : ℕ) : (init seed now).Inv seed where
  inFlight b r hr := absurd hr (by simp [init])
  writes pre post b r entry heq := by simp [init] at heq
  cache _ := rfl

/-- Every value written to the cache of a branch comes from the request that was started last for it
after its last invalidation, and no request in flight is settled. The cache holds nothing but the
snapshot and these writes. -/
theorem timelines_latest_request_wins {seed : Table B (TimelineCacheEntry T)} {now : ℕ}
    {ls : List (TimelineStep B T)} {w : TimelineWorld B T}
    (h : run (step isTauri) (init seed now) ls = some w) :
    (∀ pre post b r entry, w.history = pre ++ .wrote b r entry :: post →
      latestRequest b pre = some r) ∧
    (∀ b, w.timelineCache.lookup b = cachedEntry seed b w.history) ∧
    (∀ b r, w.inFlightTimelines.lookup b = some r → ∃ req, w.requests[r]? = some req ∧
      req.branchId = b ∧ req.phase.isSettled = false) := by
  have hinv : w.Inv seed :=
    run_invariant (fun s l t hi hst => step_inv isTauri hi hst) (init_inv seed now) h
  exact ⟨hinv.writes, hinv.cache, fun b r hr => (hinv.inFlight b r hr).2⟩

/-- A forced request overtakes a first one, whose answers come later and are not written. -/
def overtaken : List (TimelineStep ℕ ℕ) :=
  [.getBranchTimeline 1 false, .getBranchTimeline 1 true, .respond 1 (some 20), .loopBody 1,
    .read 0 none, .respond 0 (some 10), .loopBody 0, .runFinally 1, .runFinally 0]

/-- A forced request overtakes one that is under way, which then writes nothing. -/
theorem overtaken_latest_wins : ∃ w, run (step false) (init ∅ 1) overtaken = some w ∧
    w.history = [.started 1 0, .started 1 1, .wrote 1 1 ⟨20, 1⟩] ∧
    ∀ pre post b r entry, w.history = pre ++ .wrote b r entry :: post →
      latestRequest b pre = some r := by
  obtain ⟨w, hw, hhistory⟩ : ∃ w, run (step false) (init ∅ 1) overtaken = some w ∧
      w.history = [.started 1 0, .started 1 1, .wrote 1 1 ⟨20, 1⟩] := ⟨_, rfl, rfl⟩
  exact ⟨w, hw, hhistory, (timelines_latest_request_wins false hw).1⟩

end TimelineWorld

end Builderbot.Staged
