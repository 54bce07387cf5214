import Mathlib.Data.Finset.Basic
import Mathlib.Data.List.Sort
import Builderbot.Lib.Run
import Builderbot.Lib.Table

/-!
# Running sessions in the project list

The listener for `session-status-changed` in
`apps/staged/src/lib/listeners/sessionStatusListener.ts`, with the two stores it keeps in step: the
registry of sessions in `stores/sessionRegistry.svelte.ts` and the running sessions of each project in
`stores/projectState.svelte.ts`.

A terminal event removes the session from its project, which the registry names. For a PR or push
session this happens after an `await`, in a handler that knows the session by its id only. The stores
match the events as long as no handler outlives its run and the registry forgets no running session.
-/

namespace Builderbot.Staged.Listener

def MAX_REGISTRY_SIZE : ℕ := 200
def SESSION_TTL_MS : ℕ := 48 * 60 * 60 * 1000

/-- `MAX_REGISTRY_SIZE * CLEANUP_THRESHOLD`, where the threshold is 0.8. -/
def CLEANUP_SIZE : ℕ := 160

inductive SessionType where
  | commit
  | pr
  | push
  | note
  | review
  | other
deriving DecidableEq, Repr

/-- The statuses that the listener acts on. -/
inductive SessionStatus where
  | running
  | completed
  | error
  | cancelled
deriving DecidableEq, Repr

/-- `SessionStatusPayload`. -/
structure SessionStatusPayload where
  sessionId : String
  status : SessionStatus
  branchId : Option String := none
  projectId : Option String := none
  sessionType : Option SessionType := none
  isAutoReview : Bool := false
deriving DecidableEq, Repr

structure SessionMetadata where
  sessionId : String
  projectId : String
  branchId : Option String
  type : SessionType
  timestamp : ℕ
deriving DecidableEq, Repr

structure ProjectState where
  unread : Bool := false
  runningSessions : Finset String := ∅
deriving DecidableEq

/-- The value of an optional string that a test for truth lets through. -/
def truthy (s : Option String) : Option String := s.filter (· ≠ "")

/-! ## The registry -/

/-- The map of the registry, in the order in which its keys were first set. -/
abbrev Sessions := List SessionMetadata

namespace Sessions

variable (sessions : Sessions)

def get (sessionId : String) : Option SessionMetadata := sessions.find? (·.sessionId = sessionId)

/-- `Map.set`: a key that is there keeps its place. -/
def set (m : SessionMetadata) : Sessions :=
  if (get sessions m.sessionId).isSome then
    sessions.map fun x => if x.sessionId = m.sessionId then m else x
  else sessions ++ [m]

/-- `unregister`. -/
def unregister (sessionId : String) : Sessions := sessions.filter (·.sessionId ≠ sessionId)

/-- `cleanup`. -/
def cleanup (now : ℕ) : Sessions :=
  let live := sessions.filter fun m => ¬ SESSION_TTL_MS < now - m.timestamp
  if MAX_REGISTRY_SIZE < live.length then
    let entries := live.insertionSort fun a b => a.timestamp ≤ b.timestamp
    let toRemove := (entries.take (entries.length - MAX_REGISTRY_SIZE)).map (·.sessionId)
    live.filter (·.sessionId ∉ toRemove)
  else live

/-- The part of `register` that may run `cleanup`. -/
def cleanupIfLarge (now : ℕ) : Sessions :=
  if CLEANUP_SIZE ≤ sessions.length then cleanup sessions now else sessions

end Sessions

/-! ## The listener -/

/-- The stores and the completion handlers in progress. -/
structure World where
  sessions : Sessions := []
  states : Table String ProjectState := ∅
  /-- `navigation.selectedProjectId`. -/
  selectedProjectId : Option String := none
  /-- The sessions of the calls of `handleSessionEnd` that wait for `handlePrCompletion` or
  `handlePushCompletion`. -/
  handlers : List String := []
  /-- The events so far, for the sake of statements; the program keeps no such list. -/
  history : List SessionStatusPayload := []
  now : ℕ := 0

/-- The steps of the system. -/
inductive Step where
  | event (payload : SessionStatusPayload)
  /-- The `await` of the handler at this place is over, and the rest of it runs. -/
  | finishHandler (i : ℕ)
  | navigate (projectId : Option String)
  | tick (ms : ℕ)
deriving DecidableEq, Repr

variable {payload : SessionStatusPayload}

namespace World

variable (w : World)

/-- The running sessions of a project. -/
def runningSessions (projectId : String) : Finset String :=
  (w.states.lookup projectId).elim ∅ (·.runningSessions)

/-- `register`. -/
def register (sessionId projectId : String) (type : SessionType) (branchId : Option String) : World :=
  { w with
    sessions := (w.sessions.cleanupIfLarge w.now).set ⟨sessionId, projectId, branchId, type, w.now⟩ }

/-- `addRunningSession`. -/
def addRunningSession (projectId sessionId : String) : World :=
  { w with
    states := w.states.upsert projectId {} fun st =>
      { st with runningSessions := insert sessionId st.runningSessions } }

/-- `removeRunningSession`. -/
def removeRunningSession (projectId sessionId : String) : World :=
  match w.states.lookup projectId with
  | some st =>
    { w with
      states := w.states.insert projectId
        { st with runningSessions := st.runningSessions.erase sessionId } }
  | none => w

/-- `markAsUnread`. -/
def markAsUnread (projectId : String) : World :=
  { w with states := w.states.upsert projectId {} fun st => { st with unread := true } }

/-- `cleanupSession`. -/
def cleanupSession (sessionId : String) : World :=
  let w' := match truthy ((w.sessions.get sessionId).map (·.projectId)) with
    | some projectId => w.removeRunningSession projectId sessionId
    | none => w
  { w' with sessions := w'.sessions.unregister sessionId }

/-- The part of `handleSessionEnd` that marks the project as unread. -/
def noteUnread (sessionProjectId : Option String) : World :=
  match truthy sessionProjectId with
  | some projectId =>
    if w.selectedProjectId = some projectId then w else w.markAsUnread projectId
  | none => w

/-- Whether `handleSessionEnd` awaits a completion handler. -/
def awaitsCompletion (m : Option SessionMetadata) : Bool :=
  m.any fun m => (m.type = .pr || m.type = .push) && (truthy m.branchId).isSome

/-- `handleSessionEnd` up to its `await`, or to its end when it has none. -/
def handleSessionEnd (sessionId : String) : World :=
  let m := w.sessions.get sessionId
  let w' := w.noteUnread (m.map (·.projectId))
  if awaitsCompletion m then { w' with handlers := w'.handlers ++ [sessionId] }
  else w'.cleanupSession sessionId

/-- The project under which a `running` event counts: auto reviews and sessions without a project are
not tracked. -/
def target (payload : SessionStatusPayload) : Option String :=
  if payload.status = .running ∧ payload.isAutoReview = false then truthy payload.projectId else none

/-- The listener. -/
def onEvent (payload : SessionStatusPayload) : World :=
  let w := { w with history := w.history ++ [payload] }
  match target payload with
  | some projectId =>
    (w.register payload.sessionId projectId (payload.sessionType.getD .other)
      payload.branchId).addRunningSession projectId payload.sessionId
  | none =>
    match payload.status with
    | .running => w
    | .completed | .error | .cancelled => w.handleSessionEnd payload.sessionId

/-- One step, `none` when it is not possible. -/
def step : Step → Option World
  | .event payload => some (w.onEvent payload)
  | .finishHandler i =>
    w.handlers[i]?.map fun sessionId =>
      { w.cleanupSession sessionId with handlers := w.handlers.eraseIdx i }
  | .navigate projectId => some { w with selectedProjectId := projectId }
  | .tick ms => some { w with now := w.now + ms }

/-- The stores at the start, with the unread projects of the last session. -/
def init (unread : List String) : World :=
  { states := unread.foldl (fun states projectId => states.insert projectId { unread := true }) ∅ }

/-! ## What the events say -/

/-- The project of the session's last event, if that event was a `running` one that counts. -/
def lastRunning (sessionId : String) (history : List SessionStatusPayload) : Option String :=
  history.foldl (fun last payload => if payload.sessionId = sessionId then target payload else last)
    none

/-- A `running` event arrives after the handlers of the session's earlier run, says the same project as
before if the session still runs, and makes the registry forget no session that some project still
counts as running. -/
def Orderly : Step → Prop
  | .event payload => payload.status = .running →
      payload.sessionId ∉ w.handlers ∧
      (∀ projectId ∈ lastRunning payload.sessionId w.history, target payload = some projectId) ∧
      ((target payload).isSome → ∀ m ∈ w.sessions, m.sessionId ≠ payload.sessionId →
        m ∉ w.sessions.cleanupIfLarge w.now → m.sessionId ∉ w.runningSessions m.projectId)
  | _ => True

instance : ∀ l, Decidable (w.Orderly l)
  | .event payload => inferInstanceAs (Decidable (payload.status = .running →
      payload.sessionId ∉ w.handlers ∧
      (∀ projectId ∈ lastRunning payload.sessionId w.history, target payload = some projectId) ∧
      ((target payload).isSome → ∀ m ∈ w.sessions, m.sessionId ≠ payload.sessionId →
        m ∉ w.sessions.cleanupIfLarge w.now → m.sessionId ∉ w.runningSessions m.projectId)))
  | .finishHandler _ | .navigate _ | .tick _ => .isTrue trivial

theorem lastRunning_concat (sessionId : String) (history : List SessionStatusPayload)
    (payload : SessionStatusPayload) :
    lastRunning sessionId (history ++ [payload])
      = if payload.sessionId = sessionId then target payload else lastRunning sessionId history := by
  rw [lastRunning, List.foldl_append]
  rfl

theorem target_ne_empty {projectId : String}
    (h : target payload = some projectId) : payload.status = .running ∧ projectId ≠ "" := by
  unfold target at h
  split at h
  · rename_i hrun
    have hne := (Option.filter_eq_some_iff.mp h).2
    exact ⟨hrun.1, of_decide_eq_true hne⟩
  · exact absurd h nofun

end World

/-! ## What the pieces do -/

namespace Sessions

variable {sessions : Sessions} {sessionId : String} {m : SessionMetadata}

theorem get_filter (p : SessionMetadata → Bool) (h : get sessions sessionId = some m)
    (hm : p m = true) : get (sessions.filter p) sessionId = some m := by
  induction sessions with
  | nil => exact absurd h nofun
  | cons x xs ih =>
    unfold get at h ih ⊢
    by_cases hx : x.sessionId = sessionId
    · rw [List.find?_cons_of_pos (by simpa using hx), Option.some.injEq] at h
      subst h
      rw [List.filter_cons_of_pos hm, List.find?_cons_of_pos (by simpa using hx)]
    · rw [List.find?_cons_of_neg (by simpa using hx)] at h
      by_cases hp : p x = true
      · rw [List.filter_cons_of_pos hp, List.find?_cons_of_neg (by simpa using hx)]
        exact ih h
      · rw [List.filter_cons_of_neg hp]
        exact ih h

/-- `cleanup` only takes entries out. -/
theorem cleanupIfLarge_eq_filter (sessions : Sessions) (now : ℕ) :
    ∃ p : SessionMetadata → Bool, sessions.cleanupIfLarge now = sessions.filter p := by
  unfold cleanupIfLarge cleanup
  dsimp only
  split
  · split
    · rw [List.filter_filter]
      exact ⟨_, rfl⟩
    · exact ⟨_, rfl⟩
  · exact ⟨fun _ => true, (List.filter_true sessions).symm⟩

/-- An entry that `cleanup` leaves is still found. -/
theorem get_cleanupIfLarge {now : ℕ} (h : get sessions sessionId = some m)
    (hm : m ∈ sessions.cleanupIfLarge now) :
    get (sessions.cleanupIfLarge now) sessionId = some m := by
  obtain ⟨p, hp⟩ := cleanupIfLarge_eq_filter sessions now
  rw [hp] at hm ⊢
  exact get_filter p h (List.mem_filter.mp hm).2

/-- A session is found under its own id. -/
theorem get_set_self (sessions : Sessions) (m : SessionMetadata) :
    get (sessions.set m) m.sessionId = some m := by
  unfold set
  split
  · rename_i hsome
    induction sessions with
    | nil => exact absurd hsome nofun
    | cons x xs ih =>
      unfold get at hsome ih ⊢
      by_cases hx : x.sessionId = m.sessionId
      · simp [hx]
      · simp only [List.map_cons, hx, if_false]
        rw [List.find?_cons_of_neg (by simpa using hx)] at hsome ⊢
        exact ih hsome
  · rename_i hnone
    rw [Bool.not_eq_true, Option.isSome_eq_false_iff, Option.isNone_iff_eq_none] at hnone
    unfold get at hnone ⊢
    rw [List.find?_append, hnone]
    simp

/-- The others stay. -/
theorem get_set_of_ne (sessions : Sessions) (h : sessionId ≠ m.sessionId) :
    get (sessions.set m) sessionId = get sessions sessionId := by
  unfold set
  split
  · rename_i hsome
    clear hsome
    induction sessions with
    | nil => rfl
    | cons x xs ih =>
      unfold get at ih ⊢
      rw [List.map_cons]
      by_cases hx : x.sessionId = m.sessionId
      · rw [if_pos hx, List.find?_cons_of_neg (by simpa using h.symm),
          List.find?_cons_of_neg (by simpa [hx] using h.symm), ih]
      · rw [if_neg hx, List.find?_cons, List.find?_cons, ih]
  · unfold get
    rw [List.find?_append]
    simp [Ne.symm h]

theorem get_unregister_of_ne (sessions : Sessions) {other : String} (h : sessionId ≠ other) :
    get (sessions.unregister other) sessionId = get sessions sessionId := by
  unfold get unregister
  rw [List.find?_filter]
  congr 1
  funext m
  by_cases hm : m.sessionId = sessionId
  · simp [hm, h]
  · simp [hm]

end Sessions

namespace World

variable {w : World} {sessionId projectId : String}

theorem runningSessions_addRunningSession (p : String) :
    (w.addRunningSession projectId sessionId).runningSessions p
      = if p = projectId then insert sessionId (w.runningSessions p) else w.runningSessions p := by
  unfold runningSessions addRunningSession Table.upsert
  by_cases hp : p = projectId
  · subst hp
    cases w.states.lookup p with
    | none => simp
    | some st => simp
  · simp [hp, AList.lookup_insert_ne hp]

theorem runningSessions_removeRunningSession (p : String) :
    (w.removeRunningSession projectId sessionId).runningSessions p
      = if p = projectId then (w.runningSessions p).erase sessionId else w.runningSessions p := by
  unfold removeRunningSession
  split
  · rename_i st hst
    by_cases hp : p = projectId
    · subst hp
      simp [runningSessions, hst]
    · simp [runningSessions, hp, AList.lookup_insert_ne hp]
  · rename_i hst
    by_cases hp : p = projectId
    · subst hp
      simp [runningSessions, hst]
    · simp [hp]

theorem runningSessions_markAsUnread (p : String) :
    (w.markAsUnread projectId).runningSessions p = w.runningSessions p := by
  unfold runningSessions markAsUnread Table.upsert
  by_cases hp : p = projectId
  · subst hp
    cases w.states.lookup p with
    | none => simp
    | some st => simp
  · simp [AList.lookup_insert_ne hp]

theorem runningSessions_init (unread : List String) (p : String) :
    (init unread).runningSessions p = ∅ := by
  have hfold : ∀ states : Table String ProjectState,
      (∀ st ∈ states.lookup p, st.runningSessions = ∅) →
      ∀ st ∈ (unread.foldl (fun states projectId =>
        states.insert projectId { unread := true }) states).lookup p, st.runningSessions = ∅ := by
    induction unread with
    | nil => exact fun states h => h
    | cons u us ih =>
      intro states h
      refine ih _ fun st hst => ?_
      by_cases hp : p = u
      · subst hp
        rw [AList.lookup_insert, Option.mem_some_iff] at hst
        rw [← hst]
      · rw [AList.lookup_insert_ne hp] at hst
        exact h st hst
  unfold runningSessions
  cases hst : (init unread).states.lookup p with
  | none => rfl
  | some st => exact hfold ∅ (by simp) st hst

/-! ## The invariant -/

/-- A session whose last event was `running` is in its project's set, with no handler waiting to take
it out. A session in a set is registered under that project, and still runs or has a handler. -/
structure Inv (w : World) : Prop where
  running : ∀ s p, lastRunning s w.history = some p → s ∈ w.runningSessions p ∧ s ∉ w.handlers
  registered : ∀ s p, s ∈ w.runningSessions p → p ≠ "" ∧
    (w.sessions.get s).map (·.projectId) = some p ∧
    (lastRunning s w.history = some p ∨ s ∈ w.handlers)

theorem init_inv (unread : List String) : (init unread).Inv where
  running s p h := absurd h nofun
  registered s p h := by
    rw [runningSessions_init] at h
    exact absurd h (Finset.notMem_empty s)

namespace Inv

/-- Nothing that the invariant speaks about changes. -/
theorem congr {w' : World} (h : w.Inv) (hrun : ∀ p, w'.runningSessions p = w.runningSessions p)
    (hsessions : w'.sessions = w.sessions) (hhandlers : w'.handlers = w.handlers)
    (hhistory : w'.history = w.history) : w'.Inv := by
  refine ⟨fun s p hs => ?_, fun s p hs => ?_⟩
  · rw [hrun, hhandlers]
    exact h.running s p (hhistory ▸ hs)
  · rw [hsessions, hhandlers, hhistory]
    exact h.registered s p (hrun p ▸ hs)

/-- `cleanupSession` takes the session out of the one set it can be in. -/
theorem mem_cleanupSession (hreg : ∀ p, sessionId ∈ w.runningSessions p → p ≠ "" ∧
      (w.sessions.get sessionId).map (·.projectId) = some p) (s p : String) :
    s ∈ (w.cleanupSession sessionId).runningSessions p ↔ s ≠ sessionId ∧ s ∈ w.runningSessions p := by
  have hother : ∀ p, sessionId ∈ w.runningSessions p →
      truthy ((w.sessions.get sessionId).map (·.projectId)) = some p := by
    intro p hp
    obtain ⟨hne, hget⟩ := hreg p hp
    rw [hget]
    simp [truthy, hne]
  unfold cleanupSession
  dsimp only
  split
  · rename_i q hq
    change s ∈ (w.removeRunningSession q sessionId).runningSessions p ↔ _
    rw [runningSessions_removeRunningSession]
    by_cases hp : p = q
    · rw [if_pos hp, Finset.mem_erase]
    · rw [if_neg hp]
      refine ⟨fun hs => ⟨?_, hs⟩, And.right⟩
      rintro rfl
      exact hp (Option.some.inj ((hother p hs).symm.trans hq))
  · rename_i hnone
    refine ⟨fun hs => ⟨?_, hs⟩, And.right⟩
    rintro rfl
    exact absurd ((hother p hs).symm.trans hnone) nofun

/-- A clean-up concerns one session. -/
theorem get_cleanupSession_of_ne {s : String} (hs : s ≠ sessionId) :
    (w.cleanupSession sessionId).sessions.get s = w.sessions.get s := by
  unfold cleanupSession removeRunningSession
  dsimp only
  split
  · split
    · exact Sessions.get_unregister_of_ne w.sessions hs
    · exact Sessions.get_unregister_of_ne w.sessions hs
  · exact Sessions.get_unregister_of_ne w.sessions hs

/-- `cleanupSession` works on the two stores. -/
theorem cleanupSession_with (handlers : List String) (history : List SessionStatusPayload) :
    World.cleanupSession { w with handlers, history } sessionId
      = { w.cleanupSession sessionId with handlers, history } := by
  unfold World.cleanupSession removeRunningSession
  dsimp only
  split
  · split <;> rfl
  · rfl

theorem noteUnread_with (handlers : List String) (history : List SessionStatusPayload)
    (project : Option String) :
    World.noteUnread { w with handlers, history } project
      = { w.noteUnread project with handlers, history } := by
  unfold World.noteUnread
  dsimp only
  split
  · split <;> rfl
  · rfl

/-- A session that no longer runs is cleaned up, by its last handler or by another one. -/
theorem cleanupSession (h : w.Inv) (hlast : lastRunning sessionId w.history = none)
    (handlers : List String) (hsub : ∀ s ∈ handlers, s ∈ w.handlers)
    (hkept : ∀ s ∈ w.handlers, s ≠ sessionId → s ∈ handlers) :
    Inv { w.cleanupSession sessionId with handlers } := by
  have hmem : ∀ s p, s ∈ (w.cleanupSession sessionId).runningSessions p ↔
      s ≠ sessionId ∧ s ∈ w.runningSessions p := mem_cleanupSession fun p hp =>
    ⟨(h.registered sessionId p hp).1, (h.registered sessionId p hp).2.1⟩
  have hsame : w.cleanupSession sessionId
      = { w.cleanupSession sessionId with handlers := w.handlers, history := w.history } :=
    cleanupSession_with w.handlers w.history
  have hhistory : (w.cleanupSession sessionId).history = w.history := by rw [hsame]
  refine ⟨fun s p hs => ?_, fun s p hs => ?_⟩
  · change lastRunning s (w.cleanupSession sessionId).history = some p at hs
    rw [hhistory] at hs
    obtain ⟨hrun, hnot⟩ := h.running s p hs
    have hne : s ≠ sessionId := by
      rintro rfl
      exact absurd (hlast.symm.trans hs) nofun
    exact ⟨(hmem s p).mpr ⟨hne, hrun⟩, fun hin => hnot (hsub s hin)⟩
  · obtain ⟨hne, hrun⟩ := (hmem s p).mp hs
    obtain ⟨hp, hget, hcause⟩ := h.registered s p hrun
    refine ⟨hp, ?_, ?_⟩
    · change ((w.cleanupSession sessionId).sessions.get s).map _ = _
      rw [get_cleanupSession_of_ne hne, hget]
    · change lastRunning s (w.cleanupSession sessionId).history = some p ∨ _
      rw [hhistory]
      exact hcause.imp_right fun hin => hkept s hin hne

/-- A terminal event with its handler waiting. -/
theorem terminal (h : w.Inv) (htarget : target payload = none) : Inv { w with
      history := w.history ++ [payload]
      handlers := w.handlers ++ [payload.sessionId] } := by
  refine ⟨fun s p hs => ?_, fun s p hs => ?_⟩
  · change lastRunning s (w.history ++ [payload]) = some p at hs
    rw [lastRunning_concat, htarget] at hs
    split at hs
    · exact absurd hs nofun
    · rename_i hne
      obtain ⟨hrun, hnot⟩ := h.running s p hs
      refine ⟨hrun, fun hin => ?_⟩
      rcases List.mem_append.mp hin with hin | hin
      · exact hnot hin
      · exact hne (List.mem_singleton.mp hin).symm
  · obtain ⟨hp, hget, hcause⟩ := h.registered s p hs
    refine ⟨hp, hget, ?_⟩
    change lastRunning s (w.history ++ [payload]) = some p ∨ s ∈ w.handlers ++ [payload.sessionId]
    by_cases hne : payload.sessionId = s
    · exact .inr (by simp [hne])
    · rw [lastRunning_concat, if_neg hne]
      exact hcause.imp_right fun hin => List.mem_append_left _ hin

theorem noteUnread (h : w.Inv) (project : Option String) : (w.noteUnread project).Inv := by
  unfold World.noteUnread
  split
  · split
    · exact h
    · exact h.congr (fun p => runningSessions_markAsUnread p) rfl rfl rfl
  · exact h

/-- A `running` event that counts: the session is registered, after the registry has made room. -/
theorem register (h : w.Inv) {project : String}
    (htarget : target payload = some project) (hg : w.Orderly (.event payload))
    (type : SessionType) (branchId : Option String) :
    Inv ((World.register { w with history := w.history ++ [payload] } payload.sessionId project type
      branchId).addRunningSession project payload.sessionId) := by
  obtain ⟨hstatus, hne⟩ := target_ne_empty htarget
  obtain ⟨hhandlers, hsame, hkept⟩ := hg hstatus
  have hrun : ∀ p, ((World.register { w with history := w.history ++ [payload] } payload.sessionId
      project type branchId).addRunningSession project payload.sessionId).runningSessions p
        = if p = project then insert payload.sessionId (w.runningSessions p)
          else w.runningSessions p := fun p => runningSessions_addRunningSession p
  refine ⟨fun s p hs => ?_, fun s p hs => ?_⟩
  · change lastRunning s (w.history ++ [payload]) = some p at hs
    rw [lastRunning_concat] at hs
    rw [hrun]
    split at hs
    · rename_i heq
      subst heq
      have hp : p = project := Option.some.inj (hs.symm.trans htarget)
      exact ⟨by simp [hp], hhandlers⟩
    · obtain ⟨hmem, hnot⟩ := h.running s p hs
      refine ⟨?_, hnot⟩
      split
      · exact Finset.mem_insert_of_mem hmem
      · exact hmem
  · change (p ≠ "" ∧ (((w.sessions.cleanupIfLarge w.now).set
      ⟨payload.sessionId, project, branchId, type, w.now⟩).get s).map (·.projectId) = some p ∧
      (lastRunning s (w.history ++ [payload]) = some p ∨ s ∈ w.handlers))
    rw [hrun] at hs
    rw [lastRunning_concat]
    by_cases heq : payload.sessionId = s
    · -- the session itself: a set it was in before is the one it is in now
      subst heq
      have hp : p = project := by
        by_contra hother
        rw [if_neg hother] at hs
        rcases (h.registered _ p hs).2.2 with hlast | hin
        · exact hother (Option.some.inj ((hsame p hlast).symm.trans htarget))
        · exact hhandlers hin
      subst hp
      refine ⟨hne, ?_, .inl ((if_pos rfl).trans htarget)⟩
      rw [Sessions.get_set_self]
      rfl
    · have hs' : s ∈ w.runningSessions p := by
        split at hs
        · exact (Finset.mem_insert.mp hs).resolve_left (Ne.symm heq)
        · exact hs
      obtain ⟨hp, hget, hcause⟩ := h.registered s p hs'
      rw [if_neg heq]
      refine ⟨hp, ?_, hcause⟩
      obtain ⟨m, hm, hproject⟩ := Option.map_eq_some_iff.mp hget
      have hid : m.sessionId = s := by simpa using List.find?_some hm
      have hmem : m ∈ w.sessions.cleanupIfLarge w.now := by
        by_contra hdropped
        refine hkept (by rw [htarget]; rfl) m (List.mem_of_find?_eq_some hm) ?_ hdropped ?_
        · exact hid ▸ Ne.symm heq
        · rwa [hid, hproject]
      rw [Sessions.get_set_of_ne _ (Ne.symm heq), Sessions.get_cleanupIfLarge hm hmem]
      exact congrArg some hproject

/-- A terminal event: a handler is left waiting, or the session is cleaned up at once. -/
theorem handleSessionEnd (h : w.Inv) (htarget : target payload = none) :
    (World.handleSessionEnd { w with history := w.history ++ [payload] } payload.sessionId).Inv := by
  have hlast : lastRunning payload.sessionId (w.history ++ [payload]) = none := by
    rw [lastRunning_concat, if_pos rfl, htarget]
  have hterminal := h.terminal htarget
  unfold World.handleSessionEnd
  dsimp only
  generalize (w.sessions.get payload.sessionId).map (·.projectId) = project
  have hnote := hterminal.noteUnread project
  rw [noteUnread_with (w := w)] at hnote
  rw [noteUnread_with (w := w) w.handlers]
  split
  · exact hnote
  · -- the handler does not wait, so the list of handlers ends as it was
    have hclean := hnote.cleanupSession hlast w.handlers
      (fun s hs => List.mem_append_left _ hs) fun s hs hne => ?_
    · rw [cleanupSession_with (w := w.noteUnread project)] at hclean
      rw [cleanupSession_with (w := w.noteUnread project)]
      exact hclean
    · rcases List.mem_append.mp hs with hs | hs
      · exact hs
      · exact absurd (List.mem_singleton.mp hs) hne

/-- A `running` event that does not count: the session was not running before. -/
theorem ignored (h : w.Inv) (htarget : target payload = none)
    (hstatus : payload.status = .running) (hg : w.Orderly (.event payload)) :
    Inv { w with history := w.history ++ [payload] } := by
  have hlast : ∀ s, lastRunning s (w.history ++ [payload]) = lastRunning s w.history := by
    intro s
    rw [lastRunning_concat]
    split
    · rename_i heq
      subst heq
      rw [htarget, eq_comm, Option.eq_none_iff_forall_not_mem]
      intro p hp
      exact absurd (htarget.symm.trans ((hg hstatus).2.1 p hp)) nofun
    · rfl
  refine ⟨fun s p hs => h.running s p ((hlast s).symm.trans hs), fun s p hs => ?_⟩
  obtain ⟨hp, hget, hcause⟩ := h.registered s p hs
  exact ⟨hp, hget, hcause.imp_left (hlast s).trans⟩

end Inv

theorem step_inv {w w' : World} {l : Step} (h : w.Inv) (hg : w.Orderly l)
    (hstep : w.step l = some w') : w'.Inv := by
  cases l with
  | event payload =>
    rw [step, Option.some.injEq] at hstep
    subst hstep
    unfold onEvent
    dsimp only
    split
    · rename_i project htarget
      exact h.register htarget hg _ _
    · rename_i htarget
      split
      · rename_i hstatus
        exact h.ignored htarget hstatus hg
      all_goals exact h.handleSessionEnd htarget
  | finishHandler i =>
    obtain ⟨s, hs, rfl⟩ := Option.map_eq_some_iff.mp hstep
    have hmem : s ∈ w.handlers := List.mem_of_getElem? hs
    have hlast : lastRunning s w.history = none := by
      by_contra hne
      obtain ⟨p, hp⟩ := Option.ne_none_iff_exists'.mp hne
      exact (h.running s p hp).2 hmem
    refine h.cleanupSession hlast _ (fun t ht => List.mem_of_mem_eraseIdx ht) fun t ht hne => ?_
    obtain ⟨j, hj⟩ := List.mem_iff_getElem?.mp ht
    refine List.mem_eraseIdx_iff_getElem?.mpr ⟨j, ?_, hj⟩
    rintro rfl
    exact hne (Option.some.inj (hj.symm.trans hs))
  | navigate | tick =>
    rw [step, Option.some.injEq] at hstep
    exact hstep ▸ h.congr (fun _ => rfl) rfl rfl rfl

/-- Once no handler waits, the running sessions of a project are those whose last event was a `running`
one for it, in every run in which the events are orderly. -/
theorem running_sessions_match_events {unread : List String} {ls : List Step} {w : World}
    (h : run step (init unread) ls = some w) (hg : Along step Orderly (init unread) ls)
    (hdone : w.handlers = []) (s p : String) :
    s ∈ w.runningSessions p ↔ lastRunning s w.history = some p := by
  have hinv : w.Inv := run_invariant_along (fun s l t hi hgl hst => step_inv hi hgl hst)
    (init_inv unread) hg h
  constructor
  · intro hs
    rcases (hinv.registered s p hs).2.2 with hlast | hin
    · exact hlast
    · rw [hdone] at hin
      exact absurd hin List.not_mem_nil
  · exact fun hlast => (hinv.running s p hlast).1

/-- A PR session of project `p` ends while another session of the project runs. -/
def prCompleted : List Step :=
  [.event { sessionId := "s", status := .running, projectId := some "p", branchId := some "b",
            sessionType := some .pr },
    .event { sessionId := "t", status := .running, projectId := some "p" },
    .event { sessionId := "s", status := .completed, branchId := some "b" },
    .finishHandler 0]

theorem prCompleted_matches : ∃ w, run step (init []) prCompleted = some w ∧
    ("s" ∈ w.runningSessions "p" ↔ lastRunning "s" w.history = some "p") ∧
    ("t" ∈ w.runningSessions "p" ↔ lastRunning "t" w.history = some "p") := by
  have hg : Along step Orderly (init []) prCompleted := by decide
  obtain ⟨w, hw, hdone⟩ : ∃ w, run step (init []) prCompleted = some w ∧ w.handlers = [] :=
    ⟨_, rfl, rfl⟩
  exact ⟨w, hw, running_sessions_match_events hw hg hdone "s" "p",
    running_sessions_match_events hw hg hdone "t" "p"⟩

/-- A PR session is resumed while the handler of its first run waits for the network. -/
def resumedEarly : List Step :=
  [.event { sessionId := "s", status := .running, projectId := some "p", branchId := some "b",
            sessionType := some .pr },
    .event { sessionId := "s", status := .completed, branchId := some "b" },
    .event { sessionId := "s", status := .running, projectId := some "p", branchId := some "b",
             sessionType := some .pr },
    .finishHandler 0]

/-- The handler of the first run takes the resumed session out of its project. -/
theorem resumed_session_lost : ∃ w, run step (init []) resumedEarly = some w ∧ w.handlers = [] ∧
    lastRunning "s" w.history = some "p" ∧ "s" ∉ w.runningSessions "p" :=
  ⟨_, rfl, by decide⟩

end World

end Builderbot.Staged.Listener
