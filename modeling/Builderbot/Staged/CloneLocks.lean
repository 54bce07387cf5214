import Builderbot.Lib.Run
import Builderbot.Staged.DiffCollect

/-!
# Clone locks

`clone_lock_for_repo`, `ensure_local_clone` and `ensure_local_clone_with_progress` of
`apps/staged/src-tauri/src/git/github.rs`, in any number of threads. `REPO_CLONE_LOCKS` maps a key to an `Arc` of a
mutex; looking up a lock first drops the entries whose `Arc` has no other owner.

* `Inv`: the mutex that a thread refers to is the one the map has for its key. An entry is dropped in two steps, after
  its strong count was seen; in between the map's own lock keeps other threads from taking a reference.
* `run_exclusive`: threads with one key are never both between lock and unlock.
-/

namespace Builderbot.Staged

open Builderbot.Lib.Text
open Builderbot.Git (Text)

def cloneLockKey (githubRepo : Text) : Text := toAsciiLowercase (trim githubRepo)

/-- What a thread does next between lock and unlock. -/
inductive CloneStep where
  /-- `repos_dir`. -/
  | reposDir
  /-- Look for `.git`. -/
  | check
  | removeStaleCloneDir
  | createParent
  | ghClone
  /-- Look for `.git` after a clone without error. -/
  | recheck
  | removeFailedCloneDir
  | createParentAgain
  | gitClone
  | applyToClone
deriving DecidableEq, Repr

/-- The step after this one, by whether it was a success, or found `.git`; `none` returns. -/
def CloneStep.next : CloneStep → Bool → Option CloneStep
  | .reposDir, ok => if ok then some .check else none
  | .check, found => if found then some .applyToClone else some .removeStaleCloneDir
  | .removeStaleCloneDir, ok => if ok then some .createParent else none
  | .createParent, ok => if ok then some .ghClone else none
  | .ghClone, ok => if ok then some .recheck else some .removeFailedCloneDir
  | .recheck, found => if found then some .applyToClone else some .removeFailedCloneDir
  | .removeFailedCloneDir, ok => if ok then some .createParentAgain else none
  | .createParentAgain, ok => if ok then some .gitClone else none
  | .gitClone, ok => if ok then some .applyToClone else none
  | .applyToClone, _ => none

/-- Where a thread is; mutexes are numbers. -/
inductive ClonePhase where
  | start
  /-- Holds the map's lock; `retain` has these keys before it. -/
  | retaining (keys : List Text)
  /-- The same, and `retain` is about to drop the entry of `key`. -/
  | dropping (key : Text) (keys : List Text)
  /-- Has a reference to the mutex, and waits for it. -/
  | locking (mutex : ℕ)
  | locked (mutex : ℕ) (next : CloneStep)
  /-- The guard is dropped, the reference not yet. -/
  | unlocked (mutex : ℕ)
  | returned
deriving DecidableEq, Repr

/-- The mutex that a thread has a reference to. -/
def ClonePhase.repoLock : ClonePhase → Option ℕ
  | .locking mutex | .locked mutex _ | .unlocked mutex => some mutex
  | _ => none

/-- The thread has the map's lock. -/
def ClonePhase.HoldsMap : ClonePhase → Prop
  | .retaining _ | .dropping _ _ => True
  | _ => False

structure CloneThread where
  githubRepo : Text
  phase : ClonePhase := .start
deriving DecidableEq, Repr

structure CloneLocks where
  /-- `REPO_CLONE_LOCKS`. -/
  lockMap : Table Text ℕ := ∅
  /-- The thread that holds the map's lock. -/
  mapHolder : Option ℕ := none
  /-- Each mutex that was ever made, with the thread that holds it. -/
  mutexes : List (Option ℕ) := []
  threads : List CloneThread := []
deriving DecidableEq

inductive CloneEvent where
  | call (githubRepo : Text)
  /-- A thread goes on; `ok` is what the outside answers. -/
  | thread (i : ℕ) (ok : Bool)
  /-- The callback panics, or anything else between lock and unlock. -/
  | unwind (i : ℕ)
deriving DecidableEq, Repr

namespace CloneLocks

variable (s : CloneLocks)

/-- `Arc::strong_count`: the entries of the map and the threads. -/
def strongCount (mutex : ℕ) : ℕ :=
  s.lockMap.values.count mutex + s.threads.countP (·.phase.repoLock = some mutex)

def setThread (i : ℕ) (thread : CloneThread) (phase : ClonePhase) : CloneLocks :=
  { s with threads := s.threads.set i { thread with phase } }

/-- Drop the guard. -/
def unlock (i : ℕ) (thread : CloneThread) (mutex : ℕ) : CloneLocks :=
  { s with mutexes := s.mutexes.set mutex none }.setThread i thread (.unlocked mutex)

/-- One entry of `retain`, or `entry(key).or_insert_with(..).clone()` after the last. -/
def retain (i : ℕ) (thread : CloneThread) : List Text → CloneLocks
  | key :: keys =>
    match s.lockMap.lookup key with
    | some mutex =>
      if s.strongCount mutex > 1 then s.setThread i thread (.retaining keys)
      else s.setThread i thread (.dropping key keys)
    | none => s.setThread i thread (.retaining keys)
  | [] =>
    match s.lockMap.lookup (cloneLockKey thread.githubRepo) with
    | some mutex => { s with mapHolder := none }.setThread i thread (.locking mutex)
    | none =>
      { s with
        mapHolder := none
        lockMap := s.lockMap.insert (cloneLockKey thread.githubRepo) s.mutexes.length
        mutexes := s.mutexes ++ [none] }.setThread i thread (.locking s.mutexes.length)

/-- The next step of a thread. -/
def threadStep (i : ℕ) (thread : CloneThread) (ok : Bool) : Option CloneLocks :=
  match thread.phase with
  | .start =>
    -- a thread waits for the map's lock
    if s.mapHolder = none then
      some ({ s with mapHolder := some i }.setThread i thread (.retaining s.lockMap.keys))
    else none
  | .retaining keys => some (s.retain i thread keys)
  | .dropping key keys => some ({ s with lockMap := s.lockMap.erase key }.setThread i thread (.retaining keys))
  | .locking mutex =>
    if s.mutexes[mutex]? = some none then
      some ({ s with mutexes := s.mutexes.set mutex (some i) }.setThread i thread (.locked mutex .reposDir))
    else none
  | .locked mutex next =>
    match next.next ok with
    | some next => some (s.setThread i thread (.locked mutex next))
    | none => some (s.unlock i thread mutex)
  | .unlocked _ => some (s.setThread i thread .returned)
  | .returned => none

def step : CloneEvent → Option CloneLocks
  | .call githubRepo => some { s with threads := s.threads ++ [{ githubRepo }] }
  | .thread i ok => s.threads[i]?.bind fun thread => s.threadStep i thread ok
  | .unwind i =>
    s.threads[i]?.bind fun thread =>
      match thread.phase with
      | .locked mutex _ => some (s.unlock i thread mutex)
      | _ => none

/-! ## The invariant -/

structure Inv (s : CloneLocks) : Prop where
  /-- The mutex that a thread refers to is that of its key. -/
  repoLock : ∀ thread ∈ s.threads, ∀ mutex, thread.phase.repoLock = some mutex →
    s.lockMap.lookup (cloneLockKey thread.githubRepo) = some mutex
  /-- A thread between lock and unlock holds its mutex. -/
  locked : ∀ (i : ℕ) (thread : CloneThread) (mutex : ℕ) (next : CloneStep), s.threads[i]? = some thread →
    thread.phase = .locked mutex next → s.mutexes[mutex]? = some (some i)
  mapHolder : ∀ (i : ℕ) (thread : CloneThread), s.threads[i]? = some thread → thread.phase.HoldsMap →
    s.mapHolder = some i
  /-- No thread refers to the mutex of an entry that is about to be dropped. -/
  dropping : ∀ thread ∈ s.threads, ∀ key keys mutex, thread.phase = .dropping key keys →
    s.lockMap.lookup key = some mutex → ∀ other ∈ s.threads, other.phase.repoLock ≠ some mutex

variable {s : CloneLocks} {i : ℕ} {thread : CloneThread}

theorem of_getElem?_set {threads : List CloneThread} {new other : CloneThread} {j : ℕ}
    (h : (threads.set i new)[j]? = some other) : (j = i ∧ other = new) ∨ (j ≠ i ∧ threads[j]? = some other) := by
  rw [List.getElem?_set] at h
  by_cases hij : i = j
  · rw [if_pos hij] at h
    split at h
    · exact .inl ⟨hij.symm, (Option.some.inj h).symm⟩
    · cases h
  · rw [if_neg hij] at h
    exact .inr ⟨Ne.symm hij, h⟩

/-- A thread goes on without a new reference; of the mutexes and the map's lock it changes only its own. -/
theorem Inv.move (h : s.Inv) (hthread : s.threads[i]? = some thread) {phase : ClonePhase}
    {mapHolder : Option ℕ} {mutexes : List (Option ℕ)}
    (hlock : ∀ mutex, phase.repoLock = some mutex → thread.phase.repoLock = some mutex)
    (hlocked : ∀ mutex next, phase = .locked mutex next → mutexes[mutex]? = some (some i))
    (hmutexes : ∀ j (mutex : ℕ), j ≠ i → s.mutexes[mutex]? = some (some j) → mutexes[mutex]? = some (some j))
    (hholder : phase.HoldsMap → mapHolder = some i)
    (hholders : ∀ j, j ≠ i → s.mapHolder = some j → mapHolder = some j)
    (hdropping : ∀ key keys mutex, phase = .dropping key keys → s.lockMap.lookup key = some mutex →
      ∀ other ∈ s.threads, other.phase.repoLock ≠ some mutex) :
    ({ s with mapHolder, mutexes }.setThread i thread phase).Inv := by
  have hmem : thread ∈ s.threads := List.mem_of_getElem? hthread
  have hnew {other : CloneThread} (hother : other ∈ s.threads.set i { thread with phase }) :
      other ∈ s.threads ∨ other = { thread with phase } := List.mem_or_eq_of_mem_set hother
  refine ⟨fun other hother mutex href => ?_, fun j other mutex next hother hphase => ?_, fun j other hother hmap => ?_,
    fun other hother key keys mutex hphase hentry third hthird href => ?_⟩
  · rcases hnew hother with hother | rfl
    · exact h.repoLock other hother mutex href
    · exact h.repoLock thread hmem mutex (hlock mutex href)
  · rcases of_getElem?_set hother with ⟨rfl, rfl⟩ | ⟨hj, hother⟩
    · exact hlocked mutex next hphase
    · exact hmutexes j mutex hj (h.locked j other mutex next hother hphase)
  · rcases of_getElem?_set hother with ⟨rfl, rfl⟩ | ⟨hj, hother⟩
    · exact hholder hmap
    · exact hholders j hj (h.mapHolder j other hother hmap)
  · -- a thread that refers to the mutex now did so before
    have hbefore : ∃ old ∈ s.threads, old.phase.repoLock = some mutex := by
      rcases hnew hthird with hthird | rfl
      · exact ⟨third, hthird, href⟩
      · exact ⟨thread, hmem, hlock mutex href⟩
    obtain ⟨old, hold, hrefs⟩ := hbefore
    rcases hnew hother with hother | rfl
    · exact h.dropping other hother key keys mutex hphase hentry old hold hrefs
    · exact hdropping key keys mutex hphase hentry old hold hrefs

/-- The same, where only the thread's own state changes. -/
theorem Inv.setThread (h : s.Inv) (hthread : s.threads[i]? = some thread) {phase : ClonePhase}
    (hlock : ∀ mutex, phase.repoLock = some mutex → thread.phase.repoLock = some mutex)
    (hlocked : ∀ mutex next, phase = .locked mutex next → s.mutexes[mutex]? = some (some i))
    (hholder : phase.HoldsMap → thread.phase.HoldsMap)
    (hdropping : ∀ key keys mutex, phase = .dropping key keys → s.lockMap.lookup key = some mutex →
      ∀ other ∈ s.threads, other.phase.repoLock ≠ some mutex) :
    (s.setThread i thread phase).Inv :=
  h.move hthread hlock hlocked (fun _ _ _ hheld => hheld) (fun hmap => h.mapHolder i thread hthread (hholder hmap))
    (fun _ _ hj => hj) hdropping

/-- Only one thread has the map's lock. -/
theorem Inv.holdsMap_unique (h : s.Inv) (hthread : s.threads[i]? = some thread) (hmap : thread.phase.HoldsMap) {j : ℕ}
    {other : CloneThread} (hother : s.threads[j]? = some other) (hother_map : other.phase.HoldsMap) : j = i := by
  have hj : s.mapHolder = some j := h.mapHolder j other hother hother_map
  have hi : s.mapHolder = some i := h.mapHolder i thread hthread hmap
  exact Option.some.inj (hj.symm.trans hi)

/-- A strong count of at most one is that of the map's entry. -/
theorem repoLock_ne_of_strongCount {key : Text} {mutex : ℕ} (hentry : s.lockMap.lookup key = some mutex)
    (hcount : ¬ s.strongCount mutex > 1) : ∀ other ∈ s.threads, other.phase.repoLock ≠ some mutex := by
  intro other hother href
  have hmap : 0 < s.lockMap.values.count mutex := List.count_pos_iff.mpr (Table.mem_values.mpr ⟨key, hentry⟩)
  have hthreads : 0 < s.threads.countP (·.phase.repoLock = some mutex) :=
    List.countP_pos_iff.mpr ⟨other, hother, by simpa using href⟩
  rw [strongCount] at hcount
  omega

/-- The entry that nobody refers to is dropped. -/
theorem Inv.drop (h : s.Inv) (hthread : s.threads[i]? = some thread) {key : Text} {keys : List Text}
    (hphase : thread.phase = .dropping key keys) :
    ({ s with lockMap := s.lockMap.erase key }.setThread i thread (.retaining keys)).Inv := by
  have hmem : thread ∈ s.threads := List.mem_of_getElem? hthread
  have hmap : thread.phase.HoldsMap := by
    rw [hphase]
    exact trivial
  -- what a thread refers to is the entry of another key
  have herase : Inv { s with lockMap := s.lockMap.erase key } := by
    refine ⟨fun other hother mutex href => ?_, h.locked, h.mapHolder,
      fun other hother key' keys' mutex hdrops hentry => ?_⟩
    · have hentry : s.lockMap.lookup (cloneLockKey other.githubRepo) = some mutex := h.repoLock other hother mutex href
      have hkey : cloneLockKey other.githubRepo ≠ key := by
        rintro rfl
        exact h.dropping thread hmem _ keys mutex hphase hentry other hother href
      show (s.lockMap.erase key).lookup _ = _
      rw [AList.lookup_erase_ne hkey]
      exact hentry
    · by_cases hkey : key' = key
      · subst hkey
        rw [AList.lookup_erase] at hentry
        cases hentry
      · rw [AList.lookup_erase_ne hkey] at hentry
        exact h.dropping other hother key' keys' mutex hdrops hentry
  apply herase.setThread hthread
  · exact fun mutex href => by cases href
  · exact fun mutex next hnext => by cases hnext
  · exact fun _ => hmap
  · exact fun key' keys' mutex hdrops => by cases hdrops

/-- The thread takes its reference, of the entry that is there or of a new one, and releases the map's lock. -/
theorem Inv.clone (h : s.Inv) (hthread : s.threads[i]? = some thread) (hmap : thread.phase.HoldsMap)
    {lockMap : Table Text ℕ} {mutexes : List (Option ℕ)} {mutex : ℕ}
    (hentry : lockMap.lookup (cloneLockKey thread.githubRepo) = some mutex)
    (hentries : ∀ key mutex, s.lockMap.lookup key = some mutex → lockMap.lookup key = some mutex)
    (hmutexes : ∀ (mutex : ℕ) j, s.mutexes[mutex]? = some (some j) → mutexes[mutex]? = some (some j)) :
    ({ s with mapHolder := none, lockMap, mutexes }.setThread i thread (.locking mutex)).Inv := by
  -- no other thread is about to drop an entry, and this one no more
  have hnone {other : CloneThread} (hother : other ∈ s.threads.set i { thread with phase := .locking mutex }) :
      ¬ other.phase.HoldsMap := by
    intro hholds
    obtain ⟨j, hj⟩ := List.mem_iff_getElem?.mp hother
    rcases of_getElem?_set hj with ⟨rfl, rfl⟩ | ⟨hji, hj⟩
    · exact hholds
    · exact hji (h.holdsMap_unique hthread hmap hj hholds)
  refine ⟨fun other hother mutex' href => ?_, fun j other mutex' next hother hphase => ?_, fun j other hother hholds => ?_,
    fun other hother key keys mutex' hphase => ?_⟩
  · rcases List.mem_or_eq_of_mem_set hother with hother | rfl
    · exact hentries _ mutex' (h.repoLock other hother mutex' href)
    · cases href
      exact hentry
  · rcases of_getElem?_set hother with ⟨rfl, rfl⟩ | ⟨hj, hother⟩
    · cases hphase
    · exact hmutexes mutex' j (h.locked j other mutex' next hother hphase)
  · exact absurd hholds (hnone (List.mem_of_getElem? hother))
  · refine absurd ?_ (hnone hother)
    rw [hphase]
    exact trivial

theorem Inv.retain (h : s.Inv) (hthread : s.threads[i]? = some thread) {keys : List Text}
    (hphase : thread.phase = .retaining keys) : (s.retain i thread keys).Inv := by
  have hmap : thread.phase.HoldsMap := by
    rw [hphase]
    exact trivial
  -- the entry stays, and the thread goes to the next key
  have hkeep (keys : List Text) : (s.setThread i thread (.retaining keys)).Inv := by
    apply h.setThread hthread
    · exact fun mutex href => by cases href
    · exact fun mutex next hnext => by cases hnext
    · exact fun _ => hmap
    · exact fun key keys mutex hdrops => by cases hdrops
  cases keys with
  | cons key keys =>
    rw [CloneLocks.retain]
    split
    next mutex hentry =>
      split
      next => exact hkeep keys
      next hcount =>
        apply h.setThread hthread
        · exact fun mutex href => by cases href
        · exact fun mutex next hnext => by cases hnext
        · exact fun _ => hmap
        · intro key' keys' mutex' hdrops hentry'
          cases hdrops
          rw [hentry] at hentry'
          cases hentry'
          -- nobody else refers to the mutex
          exact repoLock_ne_of_strongCount hentry hcount
    next => exact hkeep keys
  | nil =>
    rw [CloneLocks.retain]
    split
    next mutex hentry => exact h.clone hthread hmap hentry (fun _ _ hold => hold) fun _ _ hheld => hheld
    -- there is no entry, so the new mutex is in nobody's hands
    next hnone =>
      apply h.clone hthread hmap (AList.lookup_insert _)
      · intro key mutex hold
        have hkey : key ≠ cloneLockKey thread.githubRepo := by
          rintro rfl
          rw [hnone] at hold
          cases hold
        rw [AList.lookup_insert_ne hkey]
        exact hold
      · intro mutex j hheld
        obtain ⟨hlt, -⟩ := List.getElem?_eq_some_iff.mp hheld
        rw [List.getElem?_append_left hlt]
        exact hheld

theorem Inv.unlock (h : s.Inv) (hthread : s.threads[i]? = some thread) {mutex : ℕ} {next : CloneStep}
    (hphase : thread.phase = .locked mutex next) : (s.unlock i thread mutex).Inv := by
  have hown : s.mutexes[mutex]? = some (some i) := h.locked i thread mutex next hthread hphase
  apply h.move hthread
  · intro mutex' href
    rw [hphase]
    exact href
  · exact fun mutex' next hnext => by cases hnext
  · intro j mutex' hj hheld
    -- the mutex is held by this thread, and so by no other
    have hne : mutex ≠ mutex' := by
      rintro rfl
      rw [hown] at hheld
      cases hheld
      exact hj rfl
    rw [List.getElem?_set_ne hne]
    exact hheld
  · exact False.elim
  · exact fun j _ hj => hj
  · exact fun key keys mutex' hdrops => by cases hdrops

theorem Inv.threadStep (h : s.Inv) (hthread : s.threads[i]? = some thread) {ok : Bool} {t : CloneLocks}
    (hstep : s.threadStep i thread ok = some t) : t.Inv := by
  rw [CloneLocks.threadStep] at hstep
  split at hstep
  next hphase =>
    split at hstep
    -- the map is free
    next hfree =>
      cases hstep
      apply h.move hthread
      · exact fun mutex href => by cases href
      · exact fun mutex next hnext => by cases hnext
      · exact fun j mutex _ hheld => hheld
      · exact fun _ => rfl
      · intro j _ hj
        rw [hfree] at hj
        cases hj
      · exact fun key keys mutex hdrops => by cases hdrops
    next => cases hstep
  next keys hphase =>
    cases hstep
    exact h.retain hthread hphase
  next key keys hphase =>
    cases hstep
    exact h.drop hthread hphase
  next mutex hphase =>
    split at hstep
    next hfree =>
      cases hstep
      have hlt : mutex < s.mutexes.length := (List.getElem?_eq_some_iff.mp hfree).1
      apply h.move hthread
      · intro mutex' href
        rw [hphase]
        exact href
      · intro mutex' next hnext
        cases hnext
        exact List.getElem?_set_self hlt
      · intro j mutex' _ hheld
        -- a mutex that is held is not the free one
        have hne : mutex ≠ mutex' := by
          rintro rfl
          rw [hfree] at hheld
          cases hheld
        rw [List.getElem?_set_ne hne]
        exact hheld
      · exact False.elim
      · exact fun j _ hj => hj
      · exact fun key keys mutex' hdrops => by cases hdrops
    next => cases hstep
  next mutex next hphase =>
    split at hstep
    next =>
      cases hstep
      apply h.setThread hthread
      · intro mutex' href
        rw [hphase]
        exact href
      · intro mutex' next' hnext
        cases hnext
        exact h.locked i thread mutex next hthread hphase
      · exact False.elim
      · exact fun key keys mutex' hdrops => by cases hdrops
    next =>
      cases hstep
      exact h.unlock hthread hphase
  next mutex hphase =>
    cases hstep
    apply h.setThread hthread
    · exact fun mutex' href => by cases href
    · exact fun mutex' next hnext => by cases hnext
    · exact False.elim
    · exact fun key keys mutex' hdrops => by cases hdrops
  next => cases hstep

theorem Inv.call (h : s.Inv) (githubRepo : Text) : Inv { s with threads := s.threads ++ [{ githubRepo }] } := by
  have hnew {other : CloneThread} (hother : other ∈ s.threads ++ [({ githubRepo } : CloneThread)]) :
      other ∈ s.threads ∨ other = { githubRepo } := by
    rcases List.mem_append.mp hother with hother | hother
    · exact .inl hother
    · exact .inr (List.mem_singleton.mp hother)
  refine ⟨fun other hother mutex href => ?_, fun j other mutex next hother hphase => ?_, fun j other hother hholds => ?_,
    fun other hother key keys mutex hphase hentry third hthird href => ?_⟩
  · rcases hnew hother with hother | rfl
    · exact h.repoLock other hother mutex href
    · cases href
  · rcases of_getElem?_concat hother with hother | ⟨-, rfl⟩
    · exact h.locked j other mutex next hother hphase
    · cases hphase
  · rcases of_getElem?_concat hother with hother | ⟨-, rfl⟩
    · exact h.mapHolder j other hother hholds
    · exact hholds.elim
  · rcases hnew hthird with hthird | rfl
    · rcases hnew hother with hother | rfl
      · exact h.dropping other hother key keys mutex hphase hentry third hthird href
      · cases hphase
    · cases href

theorem Inv.step {event : CloneEvent} {t : CloneLocks} (h : s.Inv) (hstep : s.step event = some t) : t.Inv := by
  cases event with
  | call githubRepo =>
    cases hstep
    exact h.call githubRepo
  | thread i ok =>
    obtain ⟨thread, hthread, hstep⟩ := Option.bind_eq_some_iff.mp hstep
    exact h.threadStep hthread hstep
  | unwind i =>
    obtain ⟨thread, hthread, hstep⟩ := Option.bind_eq_some_iff.mp hstep
    split at hstep
    next mutex next hphase =>
      cases hstep
      exact h.unlock hthread hphase
    next => cases hstep

theorem inv_new : Inv {} := by
  constructor <;> simp

/-! ## Exclusion -/

/-- Threads with one key are not both between lock and unlock. -/
def Exclusive (s : CloneLocks) : Prop :=
  ∀ (i j : ℕ) (thread other : CloneThread) (mutex mutex' : ℕ) (next next' : CloneStep),
    s.threads[i]? = some thread → s.threads[j]? = some other →
    thread.phase = .locked mutex next → other.phase = .locked mutex' next' →
    cloneLockKey thread.githubRepo = cloneLockKey other.githubRepo → i = j

theorem Inv.exclusive (h : s.Inv) : s.Exclusive := by
  intro i j thread other mutex mutex' next next' hi hj hphase hphase' hkey
  have hentry : s.lockMap.lookup (cloneLockKey thread.githubRepo) = some mutex :=
    h.repoLock thread (List.mem_of_getElem? hi) mutex (by rw [hphase]; rfl)
  have hentry' : s.lockMap.lookup (cloneLockKey other.githubRepo) = some mutex' :=
    h.repoLock other (List.mem_of_getElem? hj) mutex' (by rw [hphase']; rfl)
  -- one entry, so one mutex, so one holder
  have hmutex : mutex = mutex' := by
    rw [hkey, hentry'] at hentry
    exact (Option.some.inj hentry).symm
  subst hmutex
  have hown : s.mutexes[mutex]? = some (some i) := h.locked i thread mutex next hi hphase
  rw [h.locked j other mutex next' hj hphase'] at hown
  exact (Option.some.inj (Option.some.inj hown)).symm

theorem run_exclusive {events : List CloneEvent} (hrun : run step {} events = some s) : s.Exclusive :=
  (run_invariant (fun _ _ _ h hstep => h.step hstep) inv_new hrun).exclusive

/-- The entry of a repo is dropped after its thread has returned and made anew for the next one, which another thread
with the same repo waits for. -/
theorem run_exclusive_collected :
    ∃ s, run step {} [.call "O/R".toList, .thread 0 false, .thread 0 false, .thread 0 false, .thread 0 false,
        .thread 0 false, .call "a/b".toList, .thread 1 false, .thread 1 false, .thread 1 false, .thread 1 false,
        .call " o/r".toList, .thread 2 true, .thread 2 true, .thread 2 true, .thread 2 true, .thread 2 true,
        .call "o/R".toList, .thread 3 true, .thread 3 true, .thread 3 true, .thread 3 true] = some s ∧
      s.threads.map (·.phase) = [.returned, .locking 1, .locked 2 .check, .locking 2] ∧ s.Exclusive := by
  obtain ⟨s, hrun, hs⟩ := exists_run_of_any
    (show (run step {} [.call "O/R".toList, .thread 0 false, .thread 0 false, .thread 0 false, .thread 0 false,
        .thread 0 false, .call "a/b".toList, .thread 1 false, .thread 1 false, .thread 1 false, .thread 1 false,
        .call " o/r".toList, .thread 2 true, .thread 2 true, .thread 2 true, .thread 2 true, .thread 2 true,
        .call "o/R".toList, .thread 3 true, .thread 3 true, .thread 3 true, .thread 3 true]).any
      (fun s => decide (s.threads.map (·.phase) = [.returned, .locking 1, .locked 2 .check, .locking 2])) = true by
        decide)
  exact ⟨s, hrun, of_decide_eq_true hs, run_exclusive hrun⟩

end CloneLocks

end Builderbot.Staged
