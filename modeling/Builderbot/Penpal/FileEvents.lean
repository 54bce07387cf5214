import Builderbot.Penpal.ScannedFlag

/-!
# Debounced file events

`debounceFileEvent` of `apps/penpal/internal/watcher/watcher.go` collects the events of the files of a project
and starts a timer; every further event stops that timer and starts another one. The function of a timer is
`flushFileEvents`, which takes what was collected and applies it to the cache.

A timer that has fired cannot be stopped any more: its function runs, but it may have to wait for the mutex.
When it gets it, it takes all events and forgets the timer of the project, whichever that is by then. The
model has a step for each of these moments, and remembers beside the state of the watcher which events were
accepted, which of them are still waiting, and which were handed to which flush.
-/

namespace Builderbot.Penpal

open Git (Text)

/-- `fsnotify.Op`, a set of flags. -/
abbrev Op := BitVec 32

namespace Op

def create : Op := 1
def write : Op := 2
def remove : Op := 4
def rename : Op := 8

end Op

/-- An event that `debounceFileEvent` has accepted. -/
structure FileEvent where
  id : ℕ
  project : Text
  path : Path
  op : Op
deriving DecidableEq, Repr

/-- The flags of an event are added to those of the path. -/
def accumulate (events : Table Path Op) (path : Path) (op : Op) : Table Path Op :=
  events.upsert path 0 fun ops => ops ||| op

/-- What `flushFileEvents` does to the cache for a path. -/
def callsFor (project : Project) (name : Text) (entry : Path × Op) : List CacheCommand :=
  (if entry.2 &&& (Op.remove ||| Op.rename) ≠ 0 then [.removeFile name (rel project.path entry.1)] else []) ++
    if entry.2 &&& (Op.create ||| Op.write) ≠ 0 then [.upsertFile name project entry.1] else []

inductive FlushPhase where
  /-- The timer has fired. -/
  | fired
  | drained
  | applying (project : Project) (todo : List (Path × Op))
  | done
deriving DecidableEq, Repr

/-- A run of `flushFileEvents`. -/
structure Flush where
  name : Text
  timer : ℕ
  phase : FlushPhase := .fired
  events : Table Path Op := ∅
  calls : List CacheCommand := []
  /-- The project that `FindProject` gave. -/
  found : Option Project := none
  /-- The events that the flush was handed, and how many had been accepted then. -/
  handed : List FileEvent := []
  drainedAt : ℕ := 0

/-- The events of a flush as the loop goes over them. -/
def Flush.entries (f : Flush) : List (Path × Op) := f.events.entries.map fun e => (e.1, e.2)

/-- The calls that a flush has made are those for its events, but for what it has still to do. -/
def Flush.CallsOk (f : Flush) : Prop :=
  match f.phase with
  | .fired => f.handed = [] ∧ f.found = none ∧ f.calls = []
  | .drained => f.found = none ∧ f.calls = []
  | .applying project todo =>
    f.found = some project ∧ (f.calls ++ todo.flatMap (callsFor project f.name)).Perm
      (f.entries.flatMap (callsFor project f.name))
  | .done =>
    match f.found with
    | some project => f.calls.Perm (f.entries.flatMap (callsFor project f.name))
    | none => f.calls = []

/-! ## Collected flags -/

/-- The flags of the events of a path. -/
def opsOf (path : Path) (events : List FileEvent) : Option Op :=
  let es := events.filter fun e => e.path = path
  if es = [] then none else some (es.foldl (fun ops e => ops ||| e.op) 0)

/-- The table that the events of a project make. -/
def union (events : List FileEvent) : Table Path Op :=
  events.foldl (fun table e => accumulate table e.path e.op) ∅

theorem union_concat (events : List FileEvent) (e : FileEvent) :
    union (events ++ [e]) = accumulate (union events) e.path e.op := by
  rw [union, List.foldl_append]
  rfl

theorem lookup_union (events : List FileEvent) (path : Path) : (union events).lookup path = opsOf path events := by
  induction events using List.reverseRecOn with
  | nil => rfl
  | append_singleton events e ih =>
    rw [union_concat, accumulate, Table.upsert]
    by_cases hpath : path = e.path
    · subst hpath
      have hfilter : (events ++ [e]).filter (fun e' => decide (e'.path = e.path)) =
          (events.filter fun e' => decide (e'.path = e.path)) ++ [e] := by
        rw [List.filter_append, List.filter_singleton, decide_eq_true rfl]
        rfl
      have hsome : (opsOf e.path events).getD 0 =
          (events.filter fun e' => decide (e'.path = e.path)).foldl (fun ops e => ops ||| e.op) 0 := by
        rw [opsOf]
        split
        · rename_i hnil
          rw [hnil]
          rfl
        · rfl
      rw [AList.lookup_insert, ih, hsome]
      simp only [opsOf, hfilter, List.append_eq_nil_iff, List.cons_ne_nil, and_false, if_false,
        List.foldl_append, List.foldl_cons, List.foldl_nil]
    · have hfilter : (events ++ [e]).filter (fun e' => decide (e'.path = path)) =
          events.filter fun e' => decide (e'.path = path) := by
        have hne : e.path ≠ path := fun heq => hpath heq.symm
        rw [List.filter_append, List.filter_singleton, decide_eq_false hne]
        simp
      rw [AList.lookup_insert_ne hpath, ih, opsOf, opsOf, hfilter]

/-! ## The watcher -/

structure WatcherState where
  filePending : Table Text (Table Path Op) := ∅
  fileTimers : Table Text ℕ := ∅
  /-- The timers that have neither fired nor been stopped. -/
  armed : List (ℕ × Text) := []
  nextTimer : ℕ := 0
  cache : Cache := {}
  flushes : List Flush := []
  accepted : List FileEvent := []
  waiting : List FileEvent := []

inductive WatcherEvent where
  | debounceFileEvent (name : Text) (path : Path) (op : Op)
  | fire (timer : ℕ) (name : Text)
  /-- The flush takes the mutex. -/
  | drain (i : ℕ)
  | findProject (i : ℕ)
  /-- The loop over the events, which goes over the map in any order. -/
  | apply (i : ℕ) (entry : Path × Op)
  | finish (i : ℕ)
  /-- The projects of the cache change. -/
  | setProjects (projects : List Project)

namespace WatcherState

variable (s : WatcherState)

/-- `timer.Stop()` of the timer of a project. It does nothing if the timer has fired. -/
def stopped (name : Text) : List (ℕ × Text) :=
  match s.fileTimers.lookup name with
  | some timer => s.armed.filter fun t => t ≠ (timer, name)
  | none => s.armed

/-- `debounceFileEvent`. -/
def debounceFileEvent (name : Text) (path : Path) (op : Op) : WatcherState :=
  let event : FileEvent := ⟨s.accepted.length, name, path, op⟩
  { s with
    filePending := s.filePending.upsert name ∅ fun events => accumulate events path op
    fileTimers := s.fileTimers.insert name s.nextTimer
    armed := (s.nextTimer, name) :: s.stopped name
    nextTimer := s.nextTimer + 1
    accepted := s.accepted ++ [event]
    waiting := s.waiting ++ [event] }

/-- The section of `flushFileEvents` under the mutex. -/
def drain (i : ℕ) (f : Flush) : WatcherState :=
  let events := (s.filePending.lookup f.name).getD ∅
  { s with
    filePending := s.filePending.erase f.name
    fileTimers := s.fileTimers.erase f.name
    waiting := s.waiting.filter fun e => e.project ≠ f.name
    flushes := s.flushes.modify i fun f => { f with
      -- a flush that finds nothing returns
      phase := if events.entries = [] then .done else .drained
      events
      handed := s.waiting.filter fun e => e.project = f.name
      drainedAt := s.accepted.length } }

/-- The flush after `FindProject`. -/
def lookUp (f : Flush) : Flush :=
  match s.cache.findProject f.name with
  | some project => { f with phase := .applying project f.entries, found := some project }
  | none => { f with phase := .done }

def step : WatcherEvent → Option WatcherState
  | .debounceFileEvent name path op => some (s.debounceFileEvent name path op)
  | .fire timer name =>
    if (timer, name) ∈ s.armed then
      some { s with
        armed := s.armed.erase (timer, name)
        flushes := s.flushes ++ [{ name, timer }] }
    else none
  | .drain i =>
    (s.flushes[i]?).bind fun f => match f.phase with
      | .fired => some (s.drain i f)
      | _ => none
  | .findProject i =>
    (s.flushes[i]?).bind fun f => match f.phase with
      | .drained => some { s with flushes := s.flushes.modify i s.lookUp }
      | _ => none
  | .apply i entry =>
    (s.flushes[i]?).bind fun f => match f.phase with
      | .applying project todo =>
        if entry ∈ todo then
          some { s with flushes := s.flushes.modify i fun f => { f with
            phase := .applying project (todo.erase entry)
            calls := f.calls ++ callsFor project f.name entry } }
        else none
      | _ => none
  | .finish i =>
    (s.flushes[i]?).bind fun f => match f.phase with
      | .applying _ [] => some { s with flushes := s.flushes.modify i fun f => { f with phase := .done } }
      | _ => none
  | .setProjects projects => some { s with cache := s.cache.setProjects projects }

/-! ## What is handed over -/

/-- An event that waits will be seen: its project has a timer that is running, or that has fired and has a
flush that is still to drain. -/
def Watched (name : Text) : Prop :=
  (∃ timer, (timer, name) ∈ s.armed) ∨ ∃ f ∈ s.flushes, f.name = name ∧ f.phase = .fired

/-- What is said of every state. -/
structure HandsOver : Prop where
  watched : ∀ e ∈ s.waiting, s.Watched e.project
  /-- The flags of a path are those of the events of the flush. -/
  union : ∀ f ∈ s.flushes, ∀ path, f.events.lookup path = opsOf path f.handed
  /-- An event waits, or exactly one flush has it. -/
  once : ∀ e ∈ s.accepted, (e ∈ s.waiting ∧ ∀ f ∈ s.flushes, e ∉ f.handed) ∨
    (e ∉ s.waiting ∧ ∃! i : ℕ, ∃ f : Flush, s.flushes[i]? = some f ∧ e ∈ f.handed)
  own : ∀ f ∈ s.flushes, ∀ e ∈ f.handed, e ∈ s.accepted ∧ e.project = f.name ∧ e.id < f.drainedAt
  /-- Nothing that was accepted before a drain still waits. -/
  drained : ∀ f ∈ s.flushes, f.phase ≠ .fired → ∀ e ∈ s.waiting, e.project = f.name → f.drainedAt ≤ e.id
  /-- An event is handed to the first flush that drains after it. -/
  first : ∀ f ∈ s.flushes, ∀ e ∈ f.handed, ∀ g ∈ s.flushes, g.phase ≠ .fired → g.name = f.name →
    e.id < g.drainedAt → f.drainedAt ≤ g.drainedAt
  /-- A flush that has ended has applied each path of its events once, if it has found the project. -/
  applied : ∀ f ∈ s.flushes, f.phase = .done →
    match f.found with
    | some project => f.calls.Perm (f.entries.flatMap (callsFor project f.name))
    | none => f.calls = []

/-! ## The invariant -/

/-- The events of a project that wait. -/
def waitingOf (name : Text) : List FileEvent := s.waiting.filter fun e => e.project = name

structure Tracks : Prop where
  pending : ∀ name, s.filePending.lookup name =
    if s.waitingOf name = [] then none else some (union (s.waitingOf name))
  /-- The timer in the table is the one that will see the events. -/
  timers : ∀ name, s.waitingOf name ≠ [] → ∃ timer, s.fileTimers.lookup name = some timer ∧
    ((timer, name) ∈ s.armed ∨ ∃ f ∈ s.flushes, f.timer = timer ∧ f.name = name ∧ f.phase = .fired)
  ids : s.accepted.map FileEvent.id = List.range s.accepted.length
  partition : s.accepted.Perm (s.waiting ++ s.flushes.flatMap Flush.handed)
  events : ∀ f ∈ s.flushes, f.events = union f.handed
  calls : ∀ f ∈ s.flushes, f.CallsOk
  own : ∀ f ∈ s.flushes, f.drainedAt ≤ s.accepted.length ∧
    ∀ e ∈ f.handed, e.project = f.name ∧ e.id < f.drainedAt
  drained : ∀ f ∈ s.flushes, f.phase ≠ .fired → ∀ e ∈ s.waiting, e.project = f.name → f.drainedAt ≤ e.id
  first : ∀ f ∈ s.flushes, ∀ e ∈ f.handed, ∀ g ∈ s.flushes, g.phase ≠ .fired → g.name = f.name →
    e.id < g.drainedAt → f.drainedAt ≤ g.drainedAt

variable {s} {t : WatcherState} {i : ℕ} {f : Flush} {name : Text}

theorem mem_waitingOf {e : FileEvent} : e ∈ s.waitingOf name ↔ e ∈ s.waiting ∧ e.project = name := by
  rw [waitingOf, List.mem_filter, decide_eq_true_eq]

/-- An event number is below the number of accepted events. -/
theorem Tracks.id_lt (h : s.Tracks) {e : FileEvent} (he : e ∈ s.accepted) : e.id < s.accepted.length := by
  have hmem : e.id ∈ s.accepted.map FileEvent.id := List.mem_map_of_mem he
  rw [h.ids, List.mem_range] at hmem
  exact hmem

theorem Tracks.accepted_of_waiting (h : s.Tracks) {e : FileEvent} (he : e ∈ s.waiting) : e ∈ s.accepted :=
  h.partition.mem_iff.mpr (List.mem_append_left _ he)

/-- A step of a flush after it has drained. -/
theorem Tracks.of_modify (h : s.Tracks) (hf : s.flushes[i]? = some f) (hphase : f.phase ≠ .fired)
    {g : Flush → Flush} (hg : (g f).phase ≠ .fired ∧ (g f).name = f.name ∧ (g f).events = f.events ∧
      (g f).handed = f.handed ∧ (g f).drainedAt = f.drainedAt) (hcalls : (g f).CallsOk) :
    Tracks { s with flushes := s.flushes.modify i g } := by
  obtain ⟨hphase', hname, hevents, hhanded, hdrained⟩ := hg
  have hmem : f ∈ s.flushes := List.mem_of_getElem? hf
  -- every flush is as it was in what the invariant reads, but for the calls
  have hflush : ∀ f' ∈ s.flushes.modify i g, f'.CallsOk ∧ ∃ old ∈ s.flushes,
      (f'.phase = .fired → old = f') ∧ (f'.phase ≠ .fired → old.phase ≠ .fired) ∧ f'.name = old.name ∧
      f'.events = old.events ∧ f'.handed = old.handed ∧ f'.drainedAt = old.drainedAt := by
    intro f' hf'
    rcases mem_modify hf hf' with hold | rfl
    · exact ⟨h.calls f' hold, f', hold, fun _ => rfl, id, rfl, rfl, rfl, rfl⟩
    · exact ⟨hcalls, f, hmem, fun hfired => absurd hfired hphase', fun _ => hphase, hname, hevents, hhanded,
        hdrained⟩
  obtain ⟨pre, post, hflushes, hmodify⟩ := modify_getElem? hf g
  refine ⟨h.pending, fun name hname' => ?_, h.ids, ?_, fun f' hf' => ?_, fun f' hf' => (hflush f' hf').1,
    fun f' hf' => ?_, fun f' hf' hdone e he hproject => ?_, fun f' hf' e he g' hg' hdone hsame hlt => ?_⟩
  · obtain ⟨timer, htimer, hseen⟩ := h.timers name hname'
    refine ⟨timer, htimer, hseen.imp_right ?_⟩
    rintro ⟨f', hf', htimer', hname'', hfired⟩
    refine ⟨f', ?_, htimer', hname'', hfired⟩
    show f' ∈ s.flushes.modify i g
    rw [hmodify]
    rw [hflushes, List.mem_append, List.mem_cons] at hf'
    rcases hf' with hpre | rfl | hpost
    · exact List.mem_append_left _ hpre
    · exact absurd hfired hphase
    · exact List.mem_append_right _ (List.mem_cons_of_mem _ hpost)
  · show s.accepted.Perm (s.waiting ++ (s.flushes.modify i g).flatMap Flush.handed)
    have hsame : (s.flushes.modify i g).flatMap Flush.handed = s.flushes.flatMap Flush.handed := by
      rw [hmodify, hflushes, List.flatMap_append, List.flatMap_append, List.flatMap_cons, List.flatMap_cons,
        hhanded]
    rw [hsame]
    exact h.partition
  · obtain ⟨-, old, hold, -, -, -, hevents', hhanded', -⟩ := hflush f' hf'
    rw [hevents', hhanded']
    exact h.events old hold
  · obtain ⟨-, old, hold, -, -, hname', -, hhanded', hdrained'⟩ := hflush f' hf'
    rw [hname', hhanded', hdrained']
    exact h.own old hold
  · obtain ⟨-, old, hold, -, hdone', hname', -, -, hdrained'⟩ := hflush f' hf'
    rw [hdrained']
    exact h.drained old hold (hdone' hdone) e he (hproject.trans hname')
  · obtain ⟨-, old, hold, -, -, hname', -, hhanded', hdrained'⟩ := hflush f' hf'
    obtain ⟨-, old', hold', -, hdone', hname'', -, -, hdrained''⟩ := hflush g' hg'
    rw [hdrained', hdrained'']
    refine h.first old hold e (hhanded' ▸ he) old' hold' (hdone' hdone) ?_ (hdrained'' ▸ hlt)
    rw [← hname', ← hname'', hsame]

/-! ### Accepting -/

theorem mem_armed_of_ne (timer : ℕ) {other : Text} (hne : other ≠ name) (h : (timer, other) ∈ s.armed) :
    (timer, other) ∈ s.stopped name := by
  rw [stopped]
  split
  · rw [List.mem_filter]
    refine ⟨h, decide_eq_true fun heq => hne ?_⟩
    exact congrArg Prod.snd heq
  · exact h

theorem Tracks.debounceFileEvent (h : s.Tracks) (name : Text) (path : Path) (op : Op) :
    (s.debounceFileEvent name path op).Tracks := by
  let event : FileEvent := ⟨s.accepted.length, name, path, op⟩
  -- the event waits for the flush of its own project
  have hself : (s.debounceFileEvent name path op).waitingOf name = s.waitingOf name ++ [event] := by
    show (s.waiting ++ [event]).filter _ = _
    rw [List.filter_append, List.filter_singleton, decide_eq_true rfl]
    rfl
  have hother : ∀ other, other ≠ name →
      (s.debounceFileEvent name path op).waitingOf other = s.waitingOf other := by
    intro other hne
    show (s.waiting ++ [event]).filter _ = _
    have hproject : event.project ≠ other := fun heq => hne heq.symm
    rw [List.filter_append, List.filter_singleton, decide_eq_false hproject]
    exact List.append_nil _
  refine ⟨fun other => ?_, fun other hwaiting => ?_, ?_, ?_, h.events, h.calls, fun f hf => ?_,
    fun f hf hdone e he hproject => ?_, h.first⟩
  · show (s.filePending.upsert name ∅ fun events => accumulate events path op).lookup other = _
    rw [Table.upsert]
    by_cases hne : other = name
    · subst hne
      rw [AList.lookup_insert, hself, if_neg (by simp), union_concat, h.pending other]
      split
      · rename_i hnil
        rw [hnil]
        rfl
      · rfl
    · rw [AList.lookup_insert_ne hne, hother other hne, h.pending other]
  · show ∃ timer, (s.fileTimers.insert name s.nextTimer).lookup other = some timer ∧
      ((timer, other) ∈ (s.nextTimer, name) :: s.stopped name ∨ _)
    by_cases hne : other = name
    -- the timer is replaced: the new one is armed
    · subst hne
      exact ⟨s.nextTimer, AList.lookup_insert _, .inl List.mem_cons_self⟩
    · rw [hother other hne] at hwaiting
      obtain ⟨timer, htimer, hseen⟩ := h.timers other hwaiting
      refine ⟨timer, (AList.lookup_insert_ne hne).trans htimer, hseen.imp_left fun harmed => ?_⟩
      exact List.mem_cons_of_mem _ (mem_armed_of_ne timer hne harmed)
  · show (s.accepted ++ [event]).map FileEvent.id = List.range (s.accepted ++ [event]).length
    rw [List.map_append, h.ids, List.length_append, List.length_singleton, List.range_succ]
    rfl
  · show (s.accepted ++ [event]).Perm (s.waiting ++ [event] ++ s.flushes.flatMap Flush.handed)
    rw [List.append_assoc]
    refine (h.partition.append_right [event]).trans ?_
    rw [List.append_assoc]
    exact List.perm_append_comm.append_left _
  · show f.drainedAt ≤ (s.accepted ++ [event]).length ∧ _
    rw [List.length_append]
    exact ⟨Nat.le_add_right_of_le (h.own f hf).1, (h.own f hf).2⟩
  · rcases List.mem_append.mp he with hold | hnew
    · exact h.drained f hf hdone e hold hproject
    · rw [List.mem_singleton] at hnew
      rw [hnew]
      exact (h.own f hf).1

/-! ### Firing and draining -/

theorem Tracks.fire (h : s.Tracks) (timer : ℕ) (name : Text) :
    Tracks { s with
      armed := s.armed.erase (timer, name)
      flushes := s.flushes ++ [{ name, timer }] } := by
  let new : Flush := { name, timer }
  have hflush : ∀ f ∈ s.flushes ++ [new], f ∈ s.flushes ∨ f = new := by
    intro f hf
    rw [List.mem_append, List.mem_singleton] at hf
    exact hf
  refine ⟨h.pending, fun other hwaiting => ?_, h.ids, ?_, fun f hf => ?_, fun f hf => ?_, fun f hf => ?_,
    fun f hf hdone e he hproject => ?_, fun f hf e he g hg hdone hsame hlt => ?_⟩
  · obtain ⟨timer', htimer', hseen⟩ := h.timers other hwaiting
    refine ⟨timer', htimer', ?_⟩
    rcases hseen with harmed | ⟨f, hf, hrest⟩
    · by_cases hthis : (timer', other) = (timer, name)
      · -- it is the timer that fires
        obtain ⟨rfl, rfl⟩ := Prod.mk.inj hthis
        exact .inr ⟨new, List.mem_append_right _ (List.mem_singleton.mpr rfl), rfl, rfl, rfl⟩
      · exact .inl ((List.mem_erase_of_ne hthis).mpr harmed)
    · exact .inr ⟨f, List.mem_append_left _ hf, hrest⟩
  · show s.accepted.Perm (s.waiting ++ (s.flushes ++ [new]).flatMap Flush.handed)
    rw [List.flatMap_append, List.flatMap_singleton]
    show s.accepted.Perm (s.waiting ++ (s.flushes.flatMap Flush.handed ++ []))
    rw [List.append_nil]
    exact h.partition
  · rcases hflush f hf with hold | rfl
    · exact h.events f hold
    · rfl
  · rcases hflush f hf with hold | rfl
    · exact h.calls f hold
    · exact ⟨rfl, rfl, rfl⟩
  · rcases hflush f hf with hold | rfl
    · exact h.own f hold
    · exact ⟨Nat.zero_le _, fun e he => absurd he List.not_mem_nil⟩
  · rcases hflush f hf with hold | rfl
    · exact h.drained f hold hdone e he hproject
    · exact absurd rfl hdone
  · rcases hflush f hf with hold | rfl
    · rcases hflush g hg with hold' | rfl
      · exact h.first f hold e he g hold' hdone hsame hlt
      · exact absurd rfl hdone
    · exact absurd he List.not_mem_nil

theorem waitingOf_drain (i : ℕ) (f : Flush) (name : Text) :
    (s.drain i f).waitingOf name = if name = f.name then [] else s.waitingOf name := by
  show (s.waiting.filter fun e => decide (e.project ≠ f.name)).filter (fun e => decide (e.project = name)) = _
  rw [List.filter_filter]
  split
  · rename_i heq
    rw [List.filter_eq_nil_iff]
    intro e _
    simp [heq]
  · rename_i hne
    refine List.filter_congr fun e _ => ?_
    by_cases hproject : e.project = name
    · simp [hproject, hne]
    · simp [hproject]

/-- The flush at `i` takes all events of its project. -/
theorem Tracks.drain (h : s.Tracks) (hf : s.flushes[i]? = some f) (hfired : f.phase = .fired) :
    (s.drain i f).Tracks := by
  let events := (s.filePending.lookup f.name).getD ∅
  let drained : Flush := { f with
    phase := if events.entries = [] then .done else .drained
    events
    handed := s.waitingOf f.name
    drainedAt := s.accepted.length }
  have hmem : f ∈ s.flushes := List.mem_of_getElem? hf
  have hnothing : f.handed = [] ∧ f.found = none ∧ f.calls = [] := by
    have hcalls := h.calls f hmem
    rw [Flush.CallsOk, hfired] at hcalls
    exact hcalls
  have hevents : events = union (s.waitingOf f.name) := by
    show (s.filePending.lookup f.name).getD ∅ = _
    rw [h.pending f.name]
    split
    · rename_i hnil
      rw [hnil]
      rfl
    · rfl
  have hphase : drained.phase ≠ .fired := by
    show (if events.entries = [] then FlushPhase.done else .drained) ≠ .fired
    split
    · exact nofun
    · exact nofun
  have hflush : ∀ f' ∈ (s.drain i f).flushes, f' ∈ s.flushes ∨ f' = drained :=
    fun f' hf' => mem_modify hf hf'
  obtain ⟨pre, post, hflushes, hmodify⟩ := modify_getElem? hf fun f => { f with
    phase := if events.entries = [] then .done else .drained
    events
    handed := s.waiting.filter fun e => e.project = f.name
    drainedAt := s.accepted.length }
  have hmodify' : (s.drain i f).flushes = pre ++ drained :: post := hmodify
  refine ⟨fun name => ?_, fun name hwaiting => ?_, h.ids, ?_, fun f' hf' => ?_, fun f' hf' => ?_,
    fun f' hf' => ?_, fun f' hf' hdone e he hproject => ?_, fun f' hf' e he g hg hdone hsame hlt => ?_⟩
  · show (s.filePending.erase f.name).lookup name = _
    rw [waitingOf_drain]
    by_cases hname : name = f.name
    · rw [hname, AList.lookup_erase, if_pos rfl, if_pos rfl]
    · rw [AList.lookup_erase_ne hname, if_neg hname, h.pending name]
  · -- another project: the flush was not the one that it waits for
    rw [waitingOf_drain] at hwaiting
    have hname : name ≠ f.name := fun heq => hwaiting (if_pos heq)
    rw [if_neg hname] at hwaiting
    obtain ⟨timer, htimer, hseen⟩ := h.timers name hwaiting
    refine ⟨timer, (AList.lookup_erase_ne hname).trans htimer, hseen.imp_right ?_⟩
    rintro ⟨f', hf', htimer', hname', hfired'⟩
    refine ⟨f', ?_, htimer', hname', hfired'⟩
    rw [hmodify']
    rw [hflushes, List.mem_append, List.mem_cons] at hf'
    rcases hf' with hpre | rfl | hpost
    · exact List.mem_append_left _ hpre
    · exact absurd hname'.symm hname
    · exact List.mem_append_right _ (List.mem_cons_of_mem _ hpost)
  · show s.accepted.Perm ((s.waiting.filter fun e => decide (e.project ≠ f.name)) ++
      (s.drain i f).flushes.flatMap Flush.handed)
    -- what waits is split into the events taken and those that go on waiting
    have hsplit : (s.waitingOf f.name ++ s.waiting.filter fun e => decide (e.project ≠ f.name)).Perm
        s.waiting := by
      refine List.Perm.trans (.of_eq ?_) (List.filter_append_perm (fun e => decide (e.project = f.name)) s.waiting)
      simp [waitingOf]
    have hold : s.flushes.flatMap Flush.handed = pre.flatMap Flush.handed ++ post.flatMap Flush.handed := by
      rw [hflushes, List.flatMap_append, List.flatMap_cons, hnothing.1, List.nil_append]
    have hnew : (s.drain i f).flushes.flatMap Flush.handed =
        pre.flatMap Flush.handed ++ (s.waitingOf f.name ++ post.flatMap Flush.handed) := by
      rw [hmodify', List.flatMap_append, List.flatMap_cons]
    rw [hnew]
    refine h.partition.trans ?_
    rw [hold]
    refine (hsplit.symm.append_right _).trans ?_
    rw [List.perm_iff_count]
    intro e
    simp only [List.count_append]
    omega
  · rcases hflush f' hf' with hold | rfl
    · exact h.events f' hold
    · exact hevents
  · rcases hflush f' hf' with hold | rfl
    · exact h.calls f' hold
    · rw [Flush.CallsOk]
      by_cases hnil : events.entries = []
      · have hdone : drained.phase = .done := if_pos hnil
        have hfound : drained.found = none := hnothing.2.1
        rw [hdone, hfound]
        exact hnothing.2.2
      · have hdrained : drained.phase = .drained := if_neg hnil
        rw [hdrained]
        exact hnothing.2
  · rcases hflush f' hf' with hold | rfl
    · exact h.own f' hold
    · refine ⟨Nat.le_refl _, fun e he => ?_⟩
      obtain ⟨hwaiting, hproject⟩ := mem_waitingOf.mp he
      exact ⟨hproject, h.id_lt (h.accepted_of_waiting hwaiting)⟩
  · have hwaiting : e ∈ s.waiting ∧ e.project ≠ f.name := by
      have he' : e ∈ s.waiting.filter fun e => decide (e.project ≠ f.name) := he
      rw [List.mem_filter, decide_eq_true_eq] at he'
      exact he'
    rcases hflush f' hf' with hold | rfl
    · exact h.drained f' hold hdone e hwaiting.1 hproject
    · exact absurd hproject hwaiting.2
  · rcases hflush f' hf' with hold | rfl
    · rcases hflush g hg with hold' | rfl
      · exact h.first f' hold e he g hold' hdone hsame hlt
      · exact (h.own f' hold).1
    · rcases hflush g hg with hold' | rfl
      · -- a flush that has drained before has left no event of this project behind
        obtain ⟨hwaiting, hproject⟩ := mem_waitingOf.mp he
        have hle := h.drained g hold' hdone e hwaiting (hproject.trans hsame.symm)
        omega
      · exact Nat.le_refl _

/-! ### Applying -/

theorem perm_erase_flatMap {project : Project} {name : Text} {calls : List CacheCommand}
    {todo : List (Path × Op)} {entry : Path × Op} (h : entry ∈ todo) :
    (calls ++ callsFor project name entry ++ (todo.erase entry).flatMap (callsFor project name)).Perm
      (calls ++ todo.flatMap (callsFor project name)) := by
  rw [List.append_assoc, ← List.flatMap_cons]
  exact ((List.perm_cons_erase h).symm.flatMap_right _).append_left calls

theorem Tracks.step {e : WatcherEvent} (h : s.Tracks) (hstep : s.step e = some t) : t.Tracks := by
  cases e with
  | debounceFileEvent name path op =>
    obtain rfl := Option.some.inj hstep
    exact h.debounceFileEvent name path op
  | fire timer name =>
    simp only [WatcherState.step] at hstep
    split at hstep
    · obtain rfl := Option.some.inj hstep
      exact h.fire timer name
    · cases hstep
  -- no field of the invariant speaks of the projects
  | setProjects projects =>
    obtain rfl := Option.some.inj hstep
    exact ⟨h.pending, h.timers, h.ids, h.partition, h.events, h.calls, h.own, h.drained, h.first⟩
  | drain i =>
    obtain ⟨f, hf, hphase⟩ := Option.bind_eq_some_iff.mp hstep
    split at hphase
    · rename_i hfired
      obtain rfl := Option.some.inj hphase
      exact h.drain hf hfired
    · cases hphase
  | findProject i =>
    obtain ⟨f, hf, hphase⟩ := Option.bind_eq_some_iff.mp hstep
    have hcalls := h.calls f (List.mem_of_getElem? hf)
    split at hphase
    · rename_i hdrained
      obtain rfl := Option.some.inj hphase
      rw [Flush.CallsOk, hdrained] at hcalls
      refine h.of_modify hf (by rw [hdrained]; exact nofun) ?_ ?_
      · rw [lookUp]
        split
        · exact ⟨nofun, rfl, rfl, rfl, rfl⟩
        · exact ⟨nofun, rfl, rfl, rfl, rfl⟩
      · rw [lookUp]
        split
        · refine ⟨rfl, .of_eq ?_⟩
          show f.calls ++ _ = _
          rw [hcalls.2, List.nil_append]
          rfl
        · show match f.found with
            | some project => f.calls.Perm (f.entries.flatMap (callsFor project f.name))
            | none => f.calls = []
          rw [hcalls.1]
          exact hcalls.2
    · cases hphase
  -- a call moves from what is to do to what is done
  | apply i entry =>
    obtain ⟨f, hf, hphase⟩ := Option.bind_eq_some_iff.mp hstep
    have hcalls := h.calls f (List.mem_of_getElem? hf)
    split at hphase
    · rename_i project todo happlying
      rw [Flush.CallsOk, happlying] at hcalls
      split at hphase
      · rename_i hentry
        obtain rfl := Option.some.inj hphase
        refine h.of_modify hf (by rw [happlying]; exact nofun)
          ⟨nofun, rfl, rfl, rfl, rfl⟩ ⟨hcalls.1, ?_⟩
        exact (perm_erase_flatMap hentry).trans hcalls.2
      · cases hphase
    · cases hphase
  | finish i =>
    obtain ⟨f, hf, hphase⟩ := Option.bind_eq_some_iff.mp hstep
    have hcalls := h.calls f (List.mem_of_getElem? hf)
    split at hphase
    · rename_i project happlying
      rw [Flush.CallsOk, happlying] at hcalls
      obtain rfl := Option.some.inj hphase
      refine h.of_modify hf (by rw [happlying]; exact nofun)
        ⟨nofun, rfl, rfl, rfl, rfl⟩ ?_
      show match f.found with
        | some project => f.calls.Perm (f.entries.flatMap (callsFor project f.name))
        | none => f.calls = []
      obtain ⟨hfound, hperm⟩ := hcalls
      rw [hfound]
      simpa using hperm
    · cases hphase

/-! ## Every run -/

/-- What occurs once in the lists of some flushes is in the list of one of them. -/
theorem existsUnique_handed {flushes : List Flush} (hnodup : (flushes.flatMap Flush.handed).Nodup)
    {e : FileEvent} (he : e ∈ flushes.flatMap Flush.handed) :
    ∃! i : ℕ, ∃ f : Flush, flushes[i]? = some f ∧ e ∈ f.handed := by
  obtain ⟨f, hf, hmem⟩ := List.mem_flatMap.mp he
  obtain ⟨i, hi⟩ := List.mem_iff_getElem?.mp hf
  refine ⟨i, ⟨f, hi, hmem⟩, ?_⟩
  rintro j ⟨g, hj, hmem'⟩
  have hpair := (List.nodup_flatMap.mp hnodup).2
  obtain ⟨hlt, hget⟩ := List.getElem?_eq_some_iff.mp hi
  obtain ⟨hlt', hget'⟩ := List.getElem?_eq_some_iff.mp hj
  rw [List.pairwise_iff_getElem] at hpair
  rcases Nat.lt_trichotomy i j with hij | hij | hij
  · have hdisjoint := hpair i j hlt hlt' hij
    rw [hget, hget'] at hdisjoint
    exact (hdisjoint hmem hmem').elim
  · exact hij.symm
  · have hdisjoint := hpair j i hlt' hlt hij
    rw [hget, hget'] at hdisjoint
    exact (hdisjoint hmem' hmem).elim

theorem Tracks.handsOver (h : s.Tracks) : s.HandsOver := by
  have hnodup : (s.waiting ++ s.flushes.flatMap Flush.handed).Nodup := by
    rw [← h.partition.nodup_iff]
    refine List.Nodup.of_map FileEvent.id ?_
    rw [h.ids]
    exact List.nodup_range
  refine ⟨fun e he => ?_, fun f hf path => ?_, fun e he => ?_, fun f hf e he => ?_, h.drained, h.first,
    fun f hf hdone => ?_⟩
  · have hwaiting : s.waitingOf e.project ≠ [] := by
      intro hnil
      have hmem := mem_waitingOf.mpr ⟨he, rfl⟩
      rw [hnil] at hmem
      cases hmem
    obtain ⟨timer, -, harmed | ⟨f, hf, -, hname, hfired⟩⟩ := h.timers e.project hwaiting
    · exact .inl ⟨timer, harmed⟩
    · exact .inr ⟨f, hf, hname, hfired⟩
  · rw [h.events f hf, lookup_union]
  · obtain ⟨-, hflushes, hdisjoint⟩ := List.nodup_append.mp hnodup
    rcases List.mem_append.mp (h.partition.mem_iff.mp he) with hwaiting | hhanded
    · refine .inl ⟨hwaiting, fun f hf hmem => ?_⟩
      exact hdisjoint e hwaiting e (List.mem_flatMap.mpr ⟨f, hf, hmem⟩) rfl
    · exact .inr ⟨fun hwaiting => hdisjoint e hwaiting e hhanded rfl, existsUnique_handed hflushes hhanded⟩
  · obtain ⟨-, hown⟩ := h.own f hf
    refine ⟨h.partition.mem_iff.mpr (List.mem_append_right _ ?_), hown e he⟩
    exact List.mem_flatMap.mpr ⟨f, hf, he⟩
  · have hcalls := h.calls f hf
    rw [Flush.CallsOk, hdone] at hcalls
    exact hcalls

theorem tracks_new (cache : Cache) : Tracks { cache } where
  pending := fun _ => rfl
  timers := fun _ h => absurd rfl h
  ids := rfl
  partition := .refl _
  events := fun _ h => absurd h List.not_mem_nil
  calls := fun _ h => absurd h List.not_mem_nil
  own := fun _ h => absurd h List.not_mem_nil
  drained := fun _ h => absurd h List.not_mem_nil
  first := fun _ h => absurd h List.not_mem_nil

/-- In every run, no event is left without a timer, each is handed to exactly one flush with all that was
accepted before it, and the flush applies it if it finds the project in the cache. -/
theorem run_handsOver (cache : Cache) (events : List WatcherEvent) (t : WatcherState)
    (hrun : run WatcherState.step { cache } events = some t) : t.HandsOver :=
  (run_invariant (fun _ _ _ h hstep => h.step hstep) (tracks_new cache) hrun).handsOver

/-- A project `p` in the cache. -/
def sampleWatched : Project := ⟨['p'], [['p']], [], []⟩

def samplePath : Path := [['p'], ['a', '.', 'm', 'd']]

/-- The timer has fired when the second event stops it: its flush takes both, and the one of the second timer
finds nothing. -/
theorem run_handsOver_late_stop :
    ∃ t, run WatcherState.step { cache := { projects := [sampleWatched] } }
        [.debounceFileEvent ['p'] samplePath Op.create, .fire 0 ['p'],
          .debounceFileEvent ['p'] samplePath Op.write, .drain 0, .fire 1 ['p'], .drain 1, .findProject 0,
          .apply 0 (samplePath, Op.create ||| Op.write), .finish 0] = some t ∧
      t.HandsOver ∧ t.flushes.map (fun f => f.handed.map FileEvent.id) = [[0, 1], []] ∧ t.waiting = [] := by
  obtain ⟨t, hrun, ht⟩ : ∃ t, run WatcherState.step { cache := { projects := [sampleWatched] } }
      [.debounceFileEvent ['p'] samplePath Op.create, .fire 0 ['p'],
        .debounceFileEvent ['p'] samplePath Op.write, .drain 0, .fire 1 ['p'], .drain 1, .findProject 0,
        .apply 0 (samplePath, Op.create ||| Op.write), .finish 0] = some t ∧
      (decide (t.flushes.map (fun f => f.handed.map FileEvent.id) = [[0, 1], []]) &&
        decide (t.waiting = [])) = true :=
    exists_run_of_any (by decide)
  rw [Bool.and_eq_true, decide_eq_true_eq, decide_eq_true_eq] at ht
  exact ⟨t, hrun, run_handsOver _ _ t hrun, ht⟩

/-- A flush does not find the project in the cache: it drops the event that it was handed. -/
theorem flush_drops_unlisted :
    ∃ t, run WatcherState.step {} [.debounceFileEvent ['p'] samplePath Op.create, .fire 0 ['p'], .drain 0,
        .findProject 0] = some t ∧
      t.waiting = [] ∧ t.armed = [] ∧
      t.flushes.map (fun f => (f.phase, f.handed.map FileEvent.path, f.calls.length)) =
        [(.done, [samplePath], 0)] ∧
      callsFor sampleWatched ['p'] (samplePath, Op.create) ≠ [] := by
  obtain ⟨t, hrun, ht⟩ : ∃ t, run WatcherState.step {} [.debounceFileEvent ['p'] samplePath Op.create,
        .fire 0 ['p'], .drain 0, .findProject 0] = some t ∧
      (decide (t.waiting = []) && decide (t.armed = []) && decide (t.flushes.map (fun f =>
        (f.phase, f.handed.map FileEvent.path, f.calls.length)) = [(.done, [samplePath], 0)])) = true :=
    exists_run_of_any (by decide)
  simp only [Bool.and_eq_true, decide_eq_true_eq] at ht
  exact ⟨t, hrun, ht.1.1, ht.1.2, ht.2, nofun⟩

end WatcherState

end Builderbot.Penpal
