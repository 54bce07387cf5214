import Mathlib.Data.List.Sort
import Builderbot.Git.Types
import Builderbot.Lib.Run
import Builderbot.Lib.Table
import Builderbot.Lib.Utf16

/-!
# The browser cache

`apps/staged/src/lib/cache.ts`, outside Tauri: responses of backend commands are kept in IndexedDB,
and an invalidation stamps its keys with the time so that a fetch that was under way does not write.

The functions are asynchronous. Each runs without interruption from one `await` to the next, so a
step of the system is one such piece. A request to IndexedDB takes effect when it is issued, in the
order of issue, and its result is looked at in a later step. Of the requests only `set` can fail, and
`get`, whose failure reads as a missing entry.
-/

namespace Builderbot.Staged

def CACHE_SCHEMA_VERSION : ℕ := 1
def MAX_CACHE_ENTRIES : ℕ := 200

/-- `CacheEntry`; a missing `stale` is `false`. -/
structure CacheEntry (D : Type*) where
  key : List Char
  data : D
  fetchedAt : ℕ
  schemaVersion : ℕ := CACHE_SCHEMA_VERSION
  stale : Bool := false
deriving DecidableEq

namespace CacheEntry

variable {D : Type*}

/-- `isUsable` of `cachedInvoke` and `cachedCommand`. -/
def isUsable (e : CacheEntry D) : Bool := e.schemaVersion = CACHE_SCHEMA_VERSION

/-- `isFresh` of `cachedInvoke` and `cachedCommand`. -/
def isFresh (e : CacheEntry D) (ttl : Int) (now : ℕ) : Bool :=
  e.isUsable && !e.stale && (now : Int) - e.fetchedAt < ttl

/-- The entry that `markAllStale` writes back. -/
def markStale (e : CacheEntry D) : CacheEntry D := { e with stale := true }

@[simp]
theorem markStale_markStale (e : CacheEntry D) : e.markStale.markStale = e.markStale := rfl

end CacheEntry

/-- How a `set` request ends. -/
inductive SetResult where
  | ok
  /-- A `QuotaExceededError`. -/
  | quotaExceeded
  | otherError
deriving DecidableEq, Repr

/-- An entry of the store. `issuedAt` is the moment at which the network request for its data was
issued; the source does not store it and no operation reads it. -/
structure Stored (D : Type*) where
  entry : CacheEntry D
  issuedAt : ℕ
deriving DecidableEq

/-- The function that a fetch runs, with the part of its configuration that steers it. -/
inductive FetchKind where
  | cachedInvoke (bypassRead : Bool)
  | cachedCommand
deriving DecidableEq, Repr

/-- Where a call of `cachedInvoke` or `cachedCommand` stands. -/
inductive FetchPhase (D : Type*) where
  /-- `await get`, with the result that will be delivered. -/
  | reading (entry : Option (CacheEntry D))
  /-- `cachedInvoke` has yielded the cached data and waits for its consumer. -/
  | yielded (fresh : Bool)
  /-- `await invokeCommand`. -/
  | fetching (epochAtStart issuedAt : ℕ)
  /-- `await set` in `cacheSet`. -/
  | storing (value : Stored D) (result : SetResult)
  /-- `await entries` in `evictIfNeeded`, called by `cacheSet` after a quota error. -/
  | listing (value : Stored D) (allEntries : List (List Char × CacheEntry D))
  /-- `await evictIfNeeded()` in `cacheSet`; the second `set` comes next. -/
  | evicting (value : Stored D)
  /-- Everything but the `finally` block has run. -/
  | settling
  | done
deriving DecidableEq

/-- A call of `cachedInvoke` or `cachedCommand`. -/
structure Fetch (D : Type*) where
  kind : FetchKind
  key : List Char
  ttl : Int
  phase : FetchPhase D
deriving DecidableEq

/-- Where an invalidation stands. -/
inductive InvalidationPhase where
  /-- `await keys`, with the keys that will be delivered. -/
  | listing (keys : List (List Char))
  /-- `await del`. -/
  | deleting
  | done
deriving DecidableEq

/-- A call of one of the invalidators. `covers` is the set of keys it is about. -/
structure Invalidation where
  covers : List Char → Bool
  /-- The moment of the call; the source does not store it and no operation reads it. -/
  beganAt : ℕ
  phase : InvalidationPhase

/-- The network request of a fetch, with the epoch it has noted. -/
structure NetworkRequest where
  epochAtStart : ℕ
  issuedAt : ℕ

/-- The request that the fetch is waiting for. -/
def FetchPhase.request {D : Type*} : FetchPhase D → Option NetworkRequest
  | .fetching epochAtStart issuedAt => some ⟨epochAtStart, issuedAt⟩
  | _ => none

/-- The value that the fetch is about to store with its second `set`. -/
def FetchPhase.retried {D : Type*} : FetchPhase D → Option (Stored D)
  | .evicting value => some value
  | _ => none

/-- The keys that were listed and are not deleted yet. -/
def InvalidationPhase.listed : InvalidationPhase → Option (List (List Char))
  | .listing keys => some keys
  | .deleting | .done => none

/-- What the functions need of `JSON` and of the values of arguments. -/
structure ArgsCodec (A V : Type*) where
  /-- `JSON.stringify(args, Object.keys(args).sort())`. -/
  stringify : A → List Char
  /-- The entries of the object that `JSON.parse` returns; `none` when it throws or returns something
  else than an object. -/
  parse : List Char → Option (List (List Char × V))
  /-- `args[argKey] === argValue`, where a missing property is `none`. -/
  strictEq : Option V → V → Bool

namespace ArgsCodec

variable {A V : Type*} (J : ArgsCodec A V)

/-- `cacheKey`. -/
def cacheKey (command : List Char) (args : Option A) : List Char :=
  command ++ ':' :: (args.map J.stringify).getD []

/-- `parseCacheArgs`. -/
def parseCacheArgs (key command : List Char) : Option (List (List Char × V)) :=
  if (command ++ [':']).isPrefixOf key then J.parse (key.drop (command.length + 1)) else none

/-- `matches` of `invalidateCacheByArgs`. -/
def matchesArgs (command : List Char) (partialArgs : List (List Char × V)) (key : List Char) : Bool :=
  match J.parseCacheArgs key command with
  | some args => partialArgs.all fun a => J.strictEq (args.lookup a.1) a.2
  | none => false

end ArgsCodec

/-- Arguments without properties. -/
def emptyArgs : ArgsCodec Unit ℕ where
  stringify _ := ['{', '}']
  parse s := if s = ['{', '}'] then some [] else none
  strictEq a b := a = some b

/-- The store, the module's maps and the calls in progress. -/
structure CacheWorld (D : Type*) where
  store : Table (List Char) (Stored D) := ∅
  invalidationEpochs : Table (List Char) ℕ := ∅
  inFlightKeys : Table (List Char) ℕ := ∅
  fetches : List (Fetch D) := []
  invalidations : List Invalidation := []
  /-- Runs of `evictIfNeeded` that nobody awaits, at `await entries`. -/
  evictions : List (List (List Char × CacheEntry D)) := []
  /-- Runs of `markAllStale`: the entries read and not written back yet. -/
  marks : List (List (List Char × Stored D)) := []
  /-- `Date.now()`. -/
  now : ℕ := 0
  /-- The number of steps taken. -/
  moment : ℕ := 0

/-- The steps of the system. -/
inductive CacheStep (D A V : Type*) where
  /-- `cachedInvoke` (with its first `next`) or `cachedCommand` is called. -/
  | fetch (kind : FetchKind) (command : List Char) (args : Option A) (ttl : Int) (getFails : Bool)
  /-- A fetch goes on after an `await` or a `yield`. -/
  | resume (i : ℕ)
  /-- The network answers the request of a fetch, with an error for `none`. `result` is how the `set`
  request ends that the fetch then issues. -/
  | respond (i : ℕ) (data : Option D) (result : SetResult)
  /-- `cacheSet` issues the second `set`. -/
  | retry (i : ℕ) (result : SetResult)
  | invalidateCache (command : List Char) (args : Option A)
  | invalidateCacheByCommand (command : List Char)
  | invalidateCacheByArgs (command : List Char) (partialArgs : List (List Char × V))
  | resumeInvalidation (i : ℕ)
  | resumeEviction (i : ℕ)
  | markAllStale
  /-- `markAllStale` writes its next entry. -/
  | writeStale (i : ℕ) (result : SetResult)
  | clearAllCache
  /-- Time passes. -/
  | tick (ms : ℕ)

variable (key k : List Char)

namespace CacheWorld

variable {D A V : Type*}

/-- The cache at the start of the page, with what earlier visits have left in the store. -/
def init (store : Table (List Char) (Stored D)) (now : ℕ) : CacheWorld D := { store, now }

variable (J : ArgsCodec A V) (w : CacheWorld D)

/-- `getEpoch`. -/
def getEpoch (key : List Char) : ℕ := (w.invalidationEpochs.lookup key).getD 0

/-- `bumpEpoch`. -/
def bumpEpoch (key : List Char) : CacheWorld D :=
  { w with invalidationEpochs := w.invalidationEpochs.insert key w.now }

/-- `addInFlight`. -/
def addInFlight (key : List Char) : CacheWorld D :=
  { w with inFlightKeys := w.inFlightKeys.insert key ((w.inFlightKeys.lookup key).getD 0 + 1) }

/-- `removeInFlight`. -/
def removeInFlight (key : List Char) : CacheWorld D :=
  let n := (w.inFlightKeys.lookup key).getD 0
  if n ≤ 1 then { w with inFlightKeys := w.inFlightKeys.erase key }
  else { w with inFlightKeys := w.inFlightKeys.insert key (n - 1) }

/-- `set`. -/
def set (key : List Char) (value : Stored D) : SetResult → CacheWorld D
  | .ok => { w with store := w.store.insert key value }
  | _ => w

/-- `del` for each of the keys. -/
def del (keys : List (List Char)) : CacheWorld D :=
  { w with store := w.store.retain fun k _ => !keys.contains k }

/-- `entries`: all entries in the order of their keys, which compares code units. -/
def entries : List (List Char × Stored D) :=
  (w.store.entries.map fun e => (e.1, e.2)).insertionSort fun a b =>
    Lib.Utf16.encode a.1 ≤ Lib.Utf16.encode b.1

/-- The entries as the program sees them. -/
def allEntries : List (List Char × CacheEntry D) := w.entries.map fun e => (e.1, e.2.entry)

/-- The keys that `evictIfNeeded` deletes: the oldest entries above the limit. -/
def toEvict (allEntries : List (List Char × CacheEntry D)) : List (List Char) :=
  if allEntries.length ≤ MAX_CACHE_ENTRIES then []
  else
    let sorted := allEntries.insertionSort fun a b => a.2.fetchedAt ≤ b.2.fetchedAt
    (sorted.take (sorted.length - MAX_CACHE_ENTRIES)).map Prod.fst

/-- Move a fetch to another phase. -/
def setPhase (i : ℕ) (phase : FetchPhase D) : CacheWorld D :=
  { w with fetches := w.fetches.modify i fun f => { f with phase } }

/-- A fetch enters the network: it is counted in flight and notes the epoch. -/
def issue (i : ℕ) (key : List Char) : CacheWorld D :=
  (w.addInFlight key).setPhase i (.fetching (w.getEpoch key) w.moment)

/-- What a fetch does with the result of its `get`. -/
def afterGet (i : ℕ) (f : Fetch D) (entry : Option (CacheEntry D)) : CacheWorld D :=
  match entry.filter (·.isUsable) with
  | none => w.issue i f.key
  | some e =>
    match f.kind with
    | .cachedInvoke _ => w.setPhase i (.yielded (e.isFresh f.ttl w.now))
    | .cachedCommand => if e.isFresh f.ttl w.now then w.setPhase i .done else w.issue i f.key

/-- What a fetch does with the answer of the network. -/
def afterNetwork (i : ℕ) (f : Fetch D) (epochAtStart issuedAt : ℕ) (data : Option D)
    (result : SetResult) : CacheWorld D :=
  match data with
  | none => w.setPhase i .settling
  | some data =>
    -- the write is skipped when the key was invalidated while the request was under way
    if w.getEpoch f.key = epochAtStart then
      let value : Stored D := ⟨{ key := f.key, data, fetchedAt := w.now }, issuedAt⟩
      (w.set f.key value result).setPhase i (.storing value result)
    else w.setPhase i .settling

/-- What `cacheSet` does after its first `set`. -/
def afterSet (i : ℕ) (value : Stored D) : SetResult → CacheWorld D
  | .quotaExceeded => w.setPhase i (.listing value w.allEntries)
  | _ => { w.setPhase i .settling with evictions := w.evictions ++ [w.allEntries] }

/-- A fetch goes on. -/
def resumeFetch (i : ℕ) (f : Fetch D) : Option (CacheWorld D) :=
  match f.phase with
  | .reading entry => some (w.afterGet i f entry)
  | .yielded fresh => some (if fresh then w.setPhase i .done else w.issue i f.key)
  | .storing value result => some (w.afterSet i value result)
  | .listing value allEntries =>
    some ((w.del (toEvict allEntries)).setPhase i (.evicting value))
  | .settling => some ((w.removeInFlight f.key).setPhase i .done)
  | .fetching .. | .evicting .. | .done => none

/-- The network answers a fetch. -/
def respondFetch (i : ℕ) (f : Fetch D) (data : Option D) (result : SetResult) :
    Option (CacheWorld D) :=
  match f.phase with
  | .fetching epochAtStart issuedAt => some (w.afterNetwork i f epochAtStart issuedAt data result)
  | _ => none

/-- `cacheSet` issues its second `set`, whose failure it ignores. -/
def retryFetch (i : ℕ) (f : Fetch D) (result : SetResult) : Option (CacheWorld D) :=
  match f.phase with
  | .evicting value => some ((w.set f.key value result).setPhase i .settling)
  | _ => none

/-- A call of `cachedInvoke` or `cachedCommand` up to its first `await`. -/
def startFetch (kind : FetchKind) (key : List Char) (ttl : Int) (getFails : Bool) : CacheWorld D :=
  let entry := if getFails then none else (w.store.lookup key).map (·.entry)
  let w' := { w with fetches := w.fetches ++ [⟨kind, key, ttl, .reading entry⟩] }
  if kind = .cachedInvoke true then w'.issue w.fetches.length key else w'

/-- A scoped invalidator up to `await keys`. -/
def listKeys (covers : List Char → Bool) : CacheWorld D :=
  { w with
    invalidations := w.invalidations ++
      [⟨covers, w.moment, .listing ((w.entries.map Prod.fst).filter covers)⟩] }

/-- Move an invalidation to another phase. -/
def setInvalidation (i : ℕ) (phase : InvalidationPhase) : CacheWorld D :=
  { w with invalidations := w.invalidations.modify i fun v => { v with phase } }

/-- The keys whose epoch a scoped invalidator bumps. -/
def toBump (v : Invalidation) (idbMatching : List (List Char)) : List (List Char) :=
  idbMatching ++ w.inFlightKeys.keys.filter v.covers

/-- An invalidation goes on. -/
def resumeInvalidation (i : ℕ) (v : Invalidation) : Option (CacheWorld D) :=
  match v.phase with
  | .listing idbMatching =>
    some ((((w.toBump v idbMatching).foldl bumpEpoch w).del idbMatching).setInvalidation i .deleting)
  | .deleting => some (w.setInvalidation i .done)
  | .done => none

/-- A run of `markAllStale` writes back the first of the entries left to it. -/
def writeStale (i : ℕ) (result : SetResult) : List (List Char × Stored D) → Option (CacheWorld D)
  | (key, value) :: rest =>
    some { w.set key { value with entry := value.entry.markStale } result with
      marks := w.marks.set i rest }
  | [] => none

/-- One step, apart from the count of steps; `none` when it is not possible. -/
def act : CacheStep D A V → Option (CacheWorld D)
  | .fetch kind command args ttl getFails =>
    some (w.startFetch kind (J.cacheKey command args) ttl getFails)
  | .resume i => w.fetches[i]?.bind (w.resumeFetch i)
  | .respond i data result => w.fetches[i]?.bind fun f => w.respondFetch i f data result
  | .retry i result => w.fetches[i]?.bind fun f => w.retryFetch i f result
  | .invalidateCache command args =>
    let key := J.cacheKey command args
    let w' := (w.bumpEpoch key).del [key]
    some { w' with invalidations := w'.invalidations ++ [⟨(· = key), w.moment, .deleting⟩] }
  | .invalidateCacheByCommand command => some (w.listKeys (command ++ [':']).isPrefixOf)
  | .invalidateCacheByArgs command partialArgs =>
    some (w.listKeys (J.matchesArgs command partialArgs))
  | .resumeInvalidation i => w.invalidations[i]?.bind (w.resumeInvalidation i)
  | .resumeEviction i =>
    w.evictions[i]?.map fun allEntries =>
      { w.del (toEvict allEntries) with evictions := w.evictions.eraseIdx i }
  | .markAllStale => some { w with marks := w.marks ++ [w.entries] }
  | .writeStale i result => w.marks[i]?.bind (w.writeStale i result)
  | .clearAllCache => some { w with store := ∅ }
  | .tick ms => some { w with now := w.now + ms }

/-- One step. -/
def step (l : CacheStep D A V) : Option (CacheWorld D) :=
  (w.act J l).map fun w' => { w' with moment := w'.moment + 1 }

/-! ## What the pieces do -/

theorem mem_entries_iff {k : List Char} {st : Stored D} :
    (k, st) ∈ w.entries ↔ w.store.lookup k = some st := by
  have hlookup := AList.mem_lookup_iff (s := w.store) (a := k) (b := st)
  rw [Option.mem_def] at hlookup
  rw [hlookup, entries, List.mem_insertionSort]
  constructor
  · intro h
    obtain ⟨e, he, heq⟩ := List.mem_map.mp h
    rw [Prod.mk.injEq] at heq
    obtain ⟨rfl, rfl⟩ := heq
    exact he
  · intro h
    exact List.mem_map.mpr ⟨⟨k, st⟩, h, rfl⟩

theorem lookup_del (keys : List (List Char)) (k : List Char) :
    (w.del keys).store.lookup k = if k ∈ keys then none else w.store.lookup k := by
  rw [del, Table.lookup_retain_key]
  by_cases h : k ∈ keys <;> simp [h]

theorem lookup_set (value : Stored D) (result : SetResult) (k : List Char) :
    (w.set key value result).store.lookup k
      = if result = .ok ∧ k = key then some value else w.store.lookup k := by
  cases result with
  | ok =>
    by_cases h : k = key
    · subst h
      simp [set]
    · simp [set, h, AList.lookup_insert_ne h]
  | quotaExceeded => simp [set]
  | otherError => simp [set]

/-- Only the store changes in a `set`. -/
theorem set_eq (value : Stored D) (result : SetResult) :
    w.set key value result = { w with store := (w.set key value result).store } := by
  cases result <;> rfl

theorem lookup_addInFlight : ((w.addInFlight key).inFlightKeys.lookup k).getD 0
      = (w.inFlightKeys.lookup k).getD 0 + if key = k then 1 else 0 := by
  by_cases hk : key = k
  · subst hk
    simp [addInFlight]
  · simp [addInFlight, hk, AList.lookup_insert_ne (Ne.symm hk)]

theorem lookup_removeInFlight : ((w.removeInFlight key).inFlightKeys.lookup k).getD 0
      = (w.inFlightKeys.lookup k).getD 0 - if key = k then 1 else 0 := by
  by_cases hn : (w.inFlightKeys.lookup key).getD 0 ≤ 1
  · by_cases hk : key = k
    · subst hk
      simp only [removeInFlight, if_pos hn, AList.lookup_erase, Option.getD_none, if_true]
      omega
    · simp [removeInFlight, hn, hk, AList.lookup_erase_ne (Ne.symm hk)]
  · by_cases hk : key = k
    · subst hk
      simp [removeInFlight, hn]
    · simp [removeInFlight, hn, hk, AList.lookup_insert_ne (Ne.symm hk)]

/-- Only the count changes in `removeInFlight`. -/
theorem removeInFlight_eq :
    w.removeInFlight key = { w with inFlightKeys := (w.removeInFlight key).inFlightKeys } := by
  by_cases hn : (w.inFlightKeys.lookup key).getD 0 ≤ 1 <;> simp [removeInFlight, hn]

theorem getEpoch_bumpEpoch : (w.bumpEpoch key).getEpoch k = if k = key then w.now else w.getEpoch k := by
  by_cases h : k = key
  · subst h
    simp [bumpEpoch, getEpoch]
  · simp [bumpEpoch, getEpoch, h, AList.lookup_insert_ne h]

/-- Bumping several keys changes only their epochs. -/
theorem foldl_bumpEpoch (keys : List (List Char)) :
    keys.foldl bumpEpoch w
        = { w with invalidationEpochs := (keys.foldl bumpEpoch w).invalidationEpochs } ∧
      ∀ k, (keys.foldl bumpEpoch w).getEpoch k = if k ∈ keys then w.now else w.getEpoch k := by
  induction keys generalizing w with
  | nil => exact ⟨rfl, fun k => by simp⟩
  | cons key keys ih =>
    obtain ⟨hrest, hepoch⟩ := ih (w.bumpEpoch key)
    rw [List.foldl_cons]
    refine ⟨?_, fun k => ?_⟩
    · rw [hrest]
      rfl
    · have hnow : (w.bumpEpoch key).now = w.now := rfl
      rw [hepoch k, getEpoch_bumpEpoch, hnow]
      by_cases hk : k ∈ keys <;> by_cases hkey : k = key <;> simp [hk, hkey]

end CacheWorld

end Builderbot.Staged
