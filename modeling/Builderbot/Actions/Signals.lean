import Builderbot.Actions.Executor

/-!
# The signals of a stopped action

`stop_with_options` sends `SIGHUP` to the pid that it has read from `running`, and a thread of its own sends
`SIGKILL` to the same pid after the grace period. The completion thread waits for the process meanwhile, which
frees the pid for another session as soon as no process of the old one is left.

`run_signals_iff` says that the signals of a run reach the sessions that they are meant for exactly if none is sent
when the pid has a new owner.
-/

namespace Builderbot.Actions

def StopPhase.pid : StopPhase → Option ℕ
  | .pidRead pid | .graceful pid => some pid
  | .marked | .returned => none

/-- The pid of the execution, and whether its session has ended. -/
def Execution.process (e : Execution) : ℕ × Bool := (e.pid, e.vacated)

namespace Executor

def process (s : Executor) (id : ℕ) : Option (ℕ × Bool) := (s.executions[id]?).map Execution.process

/-- The signals went to the sessions of the executions that were stopped. -/
def OwnSignals (s : Executor) : Prop := ∀ signal ∈ s.signals, signal.target = .action signal.id

/-- If the session has ended, nobody has its pid. -/
def Unused (s : Executor) (c : StopCall) : Prop :=
  ∀ pid ∈ c.phase.pid, s.process c.id = some (pid, true) → s.sessions.lookup pid = none

/-- No signal is sent after the pid has got a new owner. -/
def Timely (s : Executor) : ExecutorEvent → Prop
  | .hangUp call groupGone => groupGone = false → ∀ c ∈ s.stops[call]?, s.Unused c
  | .kill call => ∀ c ∈ s.stops[call]?, s.Unused c
  | _ => True

variable {s t : Executor} {id : ℕ} {e e' : Execution}

/-- The sessions and the pids that the executor knows belong together. -/
structure Linked (s : Executor) : Prop where
  owner : ∀ id pid, s.sessions.lookup pid = some (.action id) ↔ s.process id = some (pid, false)
  running : ∀ id state, s.running.lookup id = some state →
    ∃ pid ended, state.childPid = some pid ∧ s.process id = some (pid, ended)
  stops : ∀ c ∈ s.stops, ∀ pid ∈ c.phase.pid, ∃ ended, s.process c.id = some (pid, ended)

/-! ## Threads -/

/-- The processes and their pids are as they were. -/
structure Settled (s t : Executor) : Prop where
  process : ∀ id, t.process id = s.process id
  sessions : t.sessions = s.sessions
  running : ∀ id state, t.running.lookup id = some state → s.running.lookup id = some state
  stops : t.stops = s.stops
  signals : t.signals = s.signals

/-- What changes neither processes nor calls to stop keeps the links. -/
theorem Linked.settled (h : s.Linked) (hs : s.Settled t) : t.Linked where
  owner id pid := by rw [hs.sessions, hs.process, h.owner]
  running id state hstate := by
    rw [hs.process]
    exact h.running id state (hs.running id state hstate)
  stops c hc pid hpid := by
    rw [hs.stops] at hc
    rw [hs.process]
    exact h.stops c hc pid hpid

/-- An execution that keeps its process may change otherwise. -/
theorem process_setExecution (he : s.executions[id]? = some e) (hprocess : e'.process = e.process) (j : ℕ) :
    (s.setExecution id e').process j = s.process j := by
  show ((s.executions.set id e')[j]?).map _ = (s.executions[j]?).map _
  by_cases hj : id = j
  · subst hj
    obtain ⟨hlt, -⟩ := List.getElem?_eq_some_iff.mp he
    rw [List.getElem?_set_self hlt, he, Option.map_some, Option.map_some, hprocess]
  · rw [List.getElem?_set_ne hj]

/-- A thread of an execution changes nothing but that execution. -/
theorem settled_inExecution {f : Execution → Option Execution} (hf : ∀ e e', f e = some e' → e'.process = e.process)
    (hstep : s.inExecution id f = some t) : s.Settled t := by
  obtain ⟨e, he, hmap⟩ := Option.bind_eq_some_iff.mp hstep
  obtain ⟨e', he', rfl⟩ := Option.map_eq_some_iff.mp hmap
  exact ⟨process_setExecution he (hf e e' he'), rfl, fun _ _ h => h, rfl, rfl⟩

theorem settled_advance {old new : CompletionPhase} {f : Execution → Option Execution}
    (hf : ∀ e e', f e = some e' → e'.process = e.process) (hstep : s.advance id old new f = some t) : s.Settled t := by
  refine settled_inExecution (fun e e' he => ?_) hstep
  split at he
  case isTrue =>
    obtain ⟨e₂, he₂, rfl⟩ := Option.map_eq_some_iff.mp he
    exact hf e e₂ he₂
  case isFalse => cases he

end Executor

section Process

variable {e e' : Execution} {stream : OutputStream}

/-- Reading, storing, sending and ending output keep the process. -/
theorem process_read {bytes : List UInt8} {timestamp : ℤ} (h : e.read stream bytes timestamp = some e') :
    e'.process = e.process := by
  rw [Execution.read] at h
  split at h <;> cases h
  rfl

theorem process_store (h : e.store stream = some e') : e'.process = e.process := by
  rw [Execution.store] at h
  split at h <;> cases h
  rfl

theorem process_emit (h : e.emit stream = some e') : e'.process = e.process := by
  rw [Execution.emit] at h
  split at h <;> cases h
  rfl

theorem process_eof (h : e.eof stream = some e') : e'.process = e.process := by
  rw [Execution.eof] at h
  split at h <;> cases h
  rfl

/-- The exit of a process does not end its session. -/
theorem process_exit {code : Option ℤ}
    (h : (if e.exit = none then some { e with exit := some code } else none) = some e') : e'.process = e.process := by
  split at h <;> cases h
  rfl

end Process

variable {pid : ℕ} {c : StopCall}

namespace Executor

variable {s t : Executor} {id call : ℕ}

theorem settled_trans {u : Executor} (h : s.Settled u) (hexecutions : t.executions = u.executions)
    (hsessions : t.sessions = u.sessions) (hstops : t.stops = u.stops) (hsignals : t.signals = u.signals)
    (hrunning : ∀ id state, t.running.lookup id = some state → u.running.lookup id = some state) : s.Settled t where
  process id := by rw [process, hexecutions, ← process, h.process]
  sessions := hsessions.trans h.sessions
  running id state hstate := h.running id state (hrunning id state hstate)
  stops := hstops.trans h.stops
  signals := hsignals.trans h.signals

theorem settled_refl (s : Executor) : s.Settled s := ⟨fun _ => rfl, rfl, fun _ _ h => h, rfl, rfl⟩

theorem settled_wait (hstep : s.step (.wait id) = some t) : s.Settled t := by
  refine settled_advance (fun e e' he => ?_) (show s.advance _ _ _ _ = some t from hstep)
  split at he <;> cases he
  rfl

theorem settled_takeFlag (hstep : s.step (.takeFlag id) = some t) : s.Settled t := by
  obtain ⟨u, hu, rfl⟩ := Option.map_eq_some_iff.mp (show Option.map _ _ = some t from hstep)
  refine settled_trans (settled_advance (fun e e' he => ?_) hu) rfl rfl rfl rfl fun _ _ h => h
  cases he
  rfl

/-- What is removed from `running` is not linked any more. -/
theorem settled_remove (hstep : s.step (.remove id) = some t) : s.Settled t := by
  rw [step] at hstep
  split at hstep
  case isFalse => cases hstep
  case isTrue =>
    split at hstep
    case h_1 =>
      obtain ⟨u, hu, rfl⟩ := Option.map_eq_some_iff.mp hstep
      have hsettled := settled_advance (fun e e' he => congrArg Execution.process (Option.some.inj he).symm) hu
      refine ⟨hsettled.process, hsettled.sessions, fun j state hj => ?_, hsettled.stops, hsettled.signals⟩
      change (s.running.erase id).lookup j = some state at hj
      by_cases hne : j = id
      · rw [hne, AList.lookup_erase] at hj
        cases hj
      · rwa [AList.lookup_erase_ne hne] at hj
    case h_2 => exact settled_advance (fun e e' he => congrArg Execution.process (Option.some.inj he).symm) hstep

/-- A completed execution is put in without its process. -/
theorem settled_insert (hstep : s.step (.insert id) = some t) : s.Settled t := by
  obtain ⟨e, -, hstep'⟩ := Option.bind_eq_some_iff.mp (show Option.bind _ _ = some t from hstep)
  obtain ⟨u, hu, rfl⟩ := Option.map_eq_some_iff.mp hstep'
  have hsettled := settled_advance (fun e e' he => congrArg Execution.process (Option.some.inj he).symm) hu
  exact settled_trans hsettled rfl rfl rfl rfl fun _ _ h => h

theorem settled_lookRunning (hstep : s.step (.lookRunning call) = some t) : s.Settled t := by
  obtain ⟨l, -, hstep'⟩ := Option.bind_eq_some_iff.mp (show Option.bind _ _ = some t from hstep)
  split at hstep'
  case isFalse => cases hstep'
  case isTrue =>
    split at hstep' <;> cases hstep'
    · exact settled_trans (settled_refl s) rfl rfl rfl rfl fun _ _ h => h
    · exact settled_trans (settled_refl s) rfl rfl rfl rfl fun _ _ h => h

theorem settled_lookCompleted (hstep : s.step (.lookCompleted call) = some t) : s.Settled t := by
  obtain ⟨l, -, hstep'⟩ := Option.bind_eq_some_iff.mp (show Option.bind _ _ = some t from hstep)
  split at hstep' <;> cases hstep'
  exact settled_trans (settled_refl s) rfl rfl rfl rfl fun _ _ h => h

theorem settled_clearExecution (hstep : s.step (.clearExecution id) = some t) : s.Settled t := by
  rw [step, Option.some.injEq] at hstep
  subst hstep
  split
  · exact settled_trans (settled_refl s) rfl rfl rfl rfl fun _ _ h => h
  · exact settled_refl s

/-! ## Processes -/

/-- A process starts with a pid that no session has. -/
theorem Linked.start (h : s.Linked) {pty : Bool} (hstep : s.step (.start pid pty) = some t) : t.Linked := by
  rw [step] at hstep
  split at hstep
  case isFalse => cases hstep
  case isTrue hfree =>
    cases hstep
    have hnew (id : ℕ) : ((s.executions ++ [{ pid, readers := readersFor pty }])[id]?).map Execution.process =
        if id = s.executions.length then some (pid, false) else s.process id := by
      rw [List.getElem?_append, process]
      by_cases hlt : id < s.executions.length
      · rw [if_pos hlt, if_neg (by omega)]
      · rw [if_neg hlt]
        by_cases heq : id = s.executions.length
        · rw [if_pos heq, heq, Nat.sub_self]
          rfl
        · rw [if_neg heq, List.getElem?_eq_none (by rw [List.length_singleton]; omega),
            List.getElem?_eq_none (by omega)]
    -- no process is known yet under the new id
    have hold {id pid' : ℕ} {ended : Bool} (hid : s.process id = some (pid', ended)) : id ≠ s.executions.length := by
      rintro rfl
      rw [process, List.getElem?_eq_none (Nat.le_refl _)] at hid
      cases hid
    refine ⟨fun id pid' => ?_, fun id state hstate => ?_, fun c hc pid' hpid => ?_⟩
    · show (s.sessions.insert pid (.action s.executions.length)).lookup pid' = _ ↔ Option.map _ _ = _
      rw [hnew]
      by_cases hpid : pid' = pid
      · subst hpid
        rw [AList.lookup_insert, Option.some.injEq, SessionOwner.action.injEq]
        split
        case isTrue heq => exact ⟨fun _ => rfl, fun _ => heq.symm⟩
        case isFalse hne =>
          rw [← h.owner, hfree.2]
          exact ⟨fun heq => absurd heq.symm hne, fun hnone => by cases hnone⟩
      · rw [AList.lookup_insert_ne hpid, h.owner]
        split
        case isTrue heq =>
          rw [Option.some.injEq, Prod.mk.injEq]
          exact ⟨fun hid => absurd heq (hold hid), fun heq' => absurd heq'.1.symm hpid⟩
        case isFalse => exact Iff.rfl
    · change (s.running.insert s.executions.length ⟨some pid⟩).lookup id = some state at hstate
      show ∃ pid' ended, _ ∧ Option.map _ _ = _
      rw [hnew]
      split
      case isTrue heq =>
        rw [heq, AList.lookup_insert, Option.some.injEq] at hstate
        exact ⟨pid, false, hstate ▸ rfl, rfl⟩
      case isFalse hne =>
        rw [AList.lookup_insert_ne hne] at hstate
        exact h.running id state hstate
    · obtain ⟨ended, hid⟩ := h.stops c hc pid' hpid
      exact ⟨ended, (hnew c.id).trans ((if_neg (hold hid)).trans hid)⟩

/-- The session of an execution ends. -/
theorem vacate_eq (hstep : s.step (.vacate id) = some t) :
    ∃ pid, s.process id = some (pid, false) ∧ t.sessions = s.sessions.erase pid ∧ t.running = s.running ∧
      t.stops = s.stops ∧ t.signals = s.signals ∧
      ∀ j, t.process j = if j = id then some (pid, true) else s.process j := by
  obtain ⟨e, he, hstep'⟩ := Option.bind_eq_some_iff.mp (show Option.bind _ _ = some t from hstep)
  split at hstep'
  case isFalse => cases hstep'
  case isTrue hvacate =>
    cases hstep'
    refine ⟨e.pid, ?_, rfl, rfl, rfl, rfl, fun j => ?_⟩
    · rw [process, he, Option.map_some, Execution.process, hvacate.2]
    · show ((s.executions.set id { e with vacated := true })[j]?).map Execution.process = _
      split
      case isTrue heq =>
        obtain ⟨hlt, -⟩ := List.getElem?_eq_some_iff.mp he
        rw [heq, List.getElem?_set_self hlt]
        rfl
      case isFalse hne => rw [List.getElem?_set_ne (Ne.symm hne), process]

/-- The session of an execution ends, and its pid is free. -/
theorem Linked.vacate (h : s.Linked) (hstep : s.step (.vacate id) = some t) : t.Linked := by
  obtain ⟨pid, hprocess, hsessions, hrunning, hstops, -, hnew⟩ := vacate_eq hstep
  have hleft {j pid' : ℕ} {ended : Bool} (hj : s.process j = some (pid', ended)) :
      ∃ ended', t.process j = some (pid', ended') := by
    rw [hnew]
    split
    case isTrue heq =>
      rw [heq, hprocess, Option.some.injEq, Prod.mk.injEq] at hj
      exact ⟨true, hj.1 ▸ rfl⟩
    case isFalse => exact ⟨ended, hj⟩
  refine ⟨fun j pid' => ?_, fun j state hstate => ?_, fun c hc pid' hpid => ?_⟩
  · rw [hsessions, hnew]
    by_cases hpid : pid' = pid
    -- the pid was the session of this execution only
    · subst hpid
      rw [AList.lookup_erase]
      refine ⟨fun hnone => (by cases hnone), fun hj => ?_⟩
      split at hj
      case isTrue => cases hj
      case isFalse hne =>
        have howner := ((h.owner id pid').mpr hprocess).symm.trans ((h.owner j pid').mpr hj)
        rw [Option.some.injEq, SessionOwner.action.injEq] at howner
        exact absurd howner.symm hne
    · rw [AList.lookup_erase_ne hpid, h.owner]
      split
      case isTrue heq =>
        rw [heq, hprocess, Option.some.injEq, Prod.mk.injEq, Option.some.injEq, Prod.mk.injEq]
        exact ⟨fun hj => absurd hj.1.symm hpid, fun hj => absurd hj.1.symm hpid⟩
      case isFalse => exact Iff.rfl
  · rw [hrunning] at hstate
    obtain ⟨pid', ended, hpid, hj⟩ := h.running j state hstate
    obtain ⟨ended', hj'⟩ := hleft hj
    exact ⟨pid', ended', hpid, hj'⟩
  · rw [hstops] at hc
    obtain ⟨ended, hj⟩ := h.stops c hc pid' hpid
    exact hleft hj

/-- Another program may take a pid that is free. -/
theorem Linked.otherStart (h : s.Linked) {n : ℕ} (hstep : s.step (.otherStart pid n) = some t) : t.Linked := by
  rw [step] at hstep
  split at hstep
  case isFalse => cases hstep
  case isTrue hfree =>
    cases hstep
    refine ⟨fun id pid' => ?_, h.running, h.stops⟩
    show (s.sessions.insert pid (.other n)).lookup pid' = _ ↔ s.process id = _
    rw [← h.owner]
    by_cases hpid : pid' = pid
    · rw [hpid, AList.lookup_insert, hfree]
      exact ⟨fun heq => (by cases heq), fun heq => by cases heq⟩
    · rw [AList.lookup_insert_ne hpid]

/-- And gives up only its own. -/
theorem Linked.otherEnd (h : s.Linked) (hstep : s.step (.otherEnd pid) = some t) : t.Linked := by
  rw [step] at hstep
  split at hstep
  case h_1 n hother =>
    cases hstep
    refine ⟨fun id pid' => ?_, h.running, h.stops⟩
    show (s.sessions.erase pid).lookup pid' = _ ↔ s.process id = _
    rw [← h.owner]
    by_cases hpid : pid' = pid
    · rw [hpid, AList.lookup_erase, hother]
      exact ⟨fun heq => (by cases heq), fun heq => by cases heq⟩
    · rw [AList.lookup_erase_ne hpid]
  all_goals cases hstep

/-! ## Calls to stop an execution -/

/-- A call to stop knows only pids of its execution. -/
theorem Linked.setStop (h : s.Linked) {phase : StopPhase}
    (hphase : ∀ pid ∈ phase.pid, ∃ ended, s.process c.id = some (pid, ended)) : (s.setStop call c phase).Linked := by
  refine ⟨h.owner, h.running, fun c' hc' pid hpid => ?_⟩
  rcases List.mem_or_eq_of_mem_set hc' with hc' | rfl
  · exact h.stops c' hc' pid hpid
  · exact hphase pid hpid

/-- A signal ends no session by itself. -/
theorem Linked.signal (h : s.Linked) (id pid : ℕ) : (s.signal id pid).Linked := by
  rw [Executor.signal]
  split
  · exact ⟨h.owner, h.running, h.stops⟩
  · exact h

/-- A call to stop knows no pid when it begins. -/
theorem Linked.stop (h : s.Linked) {force : Bool} (hstep : s.step (.stop id force) = some t) : t.Linked := by
  cases hstep
  refine ⟨h.owner, h.running, fun c hc pid hpid => ?_⟩
  rcases List.mem_append.mp hc with hc | hc
  · exact h.stops c hc pid hpid
  · obtain rfl := List.mem_singleton.mp hc
    cases hpid

/-- The pid is read from the execution that runs. -/
theorem Linked.readPid (h : s.Linked) (hstep : s.step (.readPid call) = some t) :
    t.Linked ∧ t.signals = s.signals := by
  obtain ⟨c, hc, hstep'⟩ := Option.bind_eq_some_iff.mp (show Option.bind _ _ = some t from hstep)
  split at hstep'
  case isFalse => cases hstep'
  case isTrue =>
    split at hstep'
    case h_1 pid hrunning =>
      cases hstep'
      refine ⟨h.setStop fun pid' hpid => ?_, rfl⟩
      obtain rfl := Option.some.inj hpid
      obtain ⟨state, hstate, hchild⟩ := Option.bind_eq_some_iff.mp hrunning
      obtain ⟨pid', ended, hchild', hprocess⟩ := h.running c.id state hstate
      rw [hchild, Option.some.injEq] at hchild'
      exact ⟨ended, hchild' ▸ hprocess⟩
    case h_2 =>
      cases hstep'
      refine ⟨h.setStop fun pid' hpid => ?_, rfl⟩
      cases hpid

/-- A signal goes to the session of the execution if it has not ended, or to nobody if the pid is unused. -/
theorem Linked.ownSignals_signal (h : s.Linked) (hmem : c ∈ s.stops) (hpid : c.phase.pid = some pid) :
    (s.signal c.id pid).OwnSignals ↔ s.OwnSignals ∧ s.Unused c := by
  obtain ⟨ended, hprocess⟩ := h.stops c hmem pid hpid
  have hunused : s.Unused c ↔ (ended = true → s.sessions.lookup pid = none) := by
    rw [Unused, hpid, hprocess]
    constructor
    · rintro hunused rfl
      exact hunused pid rfl rfl
    · rintro hnone pid' ⟨⟩ hended
      rw [Option.some.injEq, Prod.mk.injEq] at hended
      exact hnone hended.2
  rw [hunused, Executor.signal]
  split
  -- the pid is in use: its owner is the execution exactly if that has not ended
  case h_1 target htarget =>
    have hown : target = .action c.id ↔ ended = false := by
      have howner := h.owner c.id pid
      rw [htarget, hprocess, Option.some.injEq, Option.some.injEq, Prod.mk.injEq, and_iff_right rfl] at howner
      exact howner
    rw [OwnSignals, OwnSignals, htarget]
    constructor
    · intro hall
      refine ⟨fun signal hsignal => hall signal (List.mem_append_left _ hsignal), fun hended => ?_⟩
      have hlast := hown.mp (hall ⟨c.id, target⟩ (List.mem_append_right _ (List.mem_singleton_self _)))
      rw [hlast] at hended
      cases hended
    · rintro ⟨hall, hnone⟩ signal hsignal
      rcases List.mem_append.mp hsignal with hsignal | hsignal
      · exact hall signal hsignal
      · obtain rfl := List.mem_singleton.mp hsignal
        refine hown.mpr (Bool.eq_false_iff.mpr fun hended => ?_)
        cases hnone hended
  case h_2 hnone => exact ⟨fun hall => ⟨hall, fun _ => hnone⟩, fun hall => hall.1⟩

theorem signal_process (s : Executor) (id pid j : ℕ) : (s.signal id pid).process j = s.process j := by
  rw [Executor.signal]
  split <;> rfl

/-- A call that knows the pid goes on after a signal. -/
theorem Linked.goesOn (h : s.Linked) (hc : s.stops[call]? = some c)
    (hpid : c.phase.pid = some pid) {phase : StopPhase} (hphase : ∀ pid' ∈ phase.pid, pid' = pid) :
    (s.setStop call c phase).Linked ∧ ((s.signal c.id pid).setStop call c phase).Linked := by
  obtain ⟨ended, hprocess⟩ := h.stops c (List.mem_of_getElem? hc) pid hpid
  refine ⟨h.setStop fun pid' hpid' => ?_, (h.signal c.id pid).setStop fun pid' hpid' => ?_⟩
  · exact ⟨ended, hphase pid' hpid' ▸ hprocess⟩
  · rw [signal_process]
    exact ⟨ended, hphase pid' hpid' ▸ hprocess⟩

/-- The condition on the phase of a call that is there. -/
theorem unused_of_call (hc : s.stops[call]? = some c) : (∀ c ∈ s.stops[call]?, s.Unused c) ↔ s.Unused c := by
  rw [hc]
  exact ⟨fun hall => hall c rfl, fun hunused c' hc' => Option.some.inj hc' ▸ hunused⟩

/-- The first signal goes to the own process exactly if its pid has not been taken. -/
theorem Linked.hangUp (h : s.Linked) {groupGone : Bool} (hstep : s.step (.hangUp call groupGone) = some t) :
    t.Linked ∧ (t.OwnSignals ↔ s.OwnSignals ∧ s.Timely (.hangUp call groupGone)) := by
  obtain ⟨c, hc, hstep'⟩ := Option.bind_eq_some_iff.mp (show Option.bind _ _ = some t from hstep)
  rw [Timely, unused_of_call hc]
  split at hstep'
  case h_1 pid hphase =>
    have hpid : c.phase.pid = some pid := by rw [hphase, StopPhase.pid]
    have hphase' (b : Bool) : ∀ pid' ∈ (if b then StopPhase.graceful pid else .returned).pid, pid' = pid := by
      intro pid' hpid'
      cases b <;> cases hpid'
      rfl
    have hgoesOn (b : Bool) := h.goesOn hc hpid (hphase' b)
    have hsignal := h.ownSignals_signal (List.mem_of_getElem? hc) hpid
    cases hstep'
    cases groupGone with
    | true => exact ⟨(hgoesOn _).1, fun hall => ⟨hall, fun hgone => by cases hgone⟩, And.left⟩
    | false =>
      refine ⟨(hgoesOn _).2, hsignal.trans (and_congr_right fun _ => ?_)⟩
      exact ⟨fun hunused _ => hunused, fun hunused => hunused rfl⟩
  all_goals cases hstep'

/-- So does the last signal, which may come long after. -/
theorem Linked.kill (h : s.Linked) (hstep : s.step (.kill call) = some t) :
    t.Linked ∧ (t.OwnSignals ↔ s.OwnSignals ∧ s.Timely (.kill call)) := by
  obtain ⟨c, hc, hstep'⟩ := Option.bind_eq_some_iff.mp (show Option.bind _ _ = some t from hstep)
  rw [Timely, unused_of_call hc]
  split at hstep'
  case h_1 pid hphase =>
    have hpid : c.phase.pid = some pid := by rw [hphase, StopPhase.pid]
    have hreturned : ∀ pid' ∈ StopPhase.returned.pid, pid' = pid := fun pid' hpid' => by cases hpid'
    cases hstep'
    exact ⟨(h.goesOn hc hpid hreturned).2, h.ownSignals_signal (List.mem_of_getElem? hc) hpid⟩
  all_goals cases hstep'

/-! ## Runs -/

/-- What a step keeps, and when the signals after it are as they should be. -/
def Step (s t : Executor) (event : ExecutorEvent) : Prop :=
  t.Linked ∧ (t.OwnSignals ↔ s.OwnSignals ∧ s.Timely event)

/-- A step without a signal keeps what is said of the signals. -/
theorem step_of_signals {event : ExecutorEvent} (h : t.Linked) (hsignals : t.signals = s.signals)
    (htimely : s.Timely event) : Step s t event := by
  refine ⟨h, ?_⟩
  rw [OwnSignals, hsignals, ← OwnSignals]
  exact ⟨fun hall => ⟨hall, htimely⟩, And.left⟩

/-- One case for each event; only two of them send signals. -/
theorem Linked.step (h : s.Linked) {event : ExecutorEvent} (hstep : s.step event = some t) : Step s t event := by
  have hsettled (hs : s.Settled t) (htimely : s.Timely event) : Step s t event :=
    step_of_signals (h.settled hs) hs.signals htimely
  -- `settled` covers the events that change neither sessions nor processes
  cases event with
  | start pid pty =>
    refine step_of_signals (h.start hstep) ?_ trivial
    rw [Executor.step] at hstep
    split at hstep <;> cases hstep
    rfl
  | read id stream bytes timestamp => exact hsettled (settled_inExecution (fun _ _ => process_read) hstep) trivial
  | store id stream => exact hsettled (settled_inExecution (fun _ _ => process_store) hstep) trivial
  | emit id stream => exact hsettled (settled_inExecution (fun _ _ => process_emit) hstep) trivial
  | eof id stream => exact hsettled (settled_inExecution (fun _ _ => process_eof) hstep) trivial
  | exit id code => exact hsettled (settled_inExecution (fun _ _ => process_exit) hstep) trivial
  | wait id => exact hsettled (settled_wait hstep) trivial
  | takeFlag id => exact hsettled (settled_takeFlag hstep) trivial
  | remove id => exact hsettled (settled_remove hstep) trivial
  | copy | report => exact hsettled (settled_advance (fun e e' he => by cases he; rfl) hstep) trivial
  | insert id => exact hsettled (settled_insert hstep) trivial
  | getBufferedOutput id =>
    cases hstep
    exact hsettled (settled_trans (settled_refl s) rfl rfl rfl rfl fun _ _ h => h) trivial
  | lookRunning call => exact hsettled (settled_lookRunning hstep) trivial
  | lookCompleted call => exact hsettled (settled_lookCompleted hstep) trivial
  | clearExecution id => exact hsettled (settled_clearExecution hstep) trivial
  | stop id force =>
    refine step_of_signals (h.stop hstep) ?_ trivial
    cases hstep
    rfl
  | readPid call =>
    obtain ⟨hlinked, hsignals⟩ := h.readPid hstep
    exact step_of_signals hlinked hsignals trivial
  | hangUp call groupGone => exact h.hangUp hstep
  | kill call => exact h.kill hstep
  | vacate id =>
    obtain ⟨-, -, -, -, -, hsignals, -⟩ := vacate_eq hstep
    exact step_of_signals (h.vacate hstep) hsignals trivial
  | otherStart pid n =>
    refine step_of_signals (h.otherStart hstep) ?_ trivial
    rw [Executor.step] at hstep
    split at hstep <;> cases hstep
    rfl
  | otherEnd pid =>
    refine step_of_signals (h.otherEnd hstep) ?_ trivial
    rw [Executor.step] at hstep
    split at hstep <;> cases hstep
    rfl

/-- Without executions there is nothing to link. -/
theorem linked_init : Linked {} := by
  refine ⟨fun id pid => ?_, fun id state hstate => (by cases hstate), fun c hc => absurd hc List.not_mem_nil⟩
  exact ⟨fun hlookup => (by cases hlookup), fun hprocess => by cases hprocess⟩

/-- All signals of a run reach the sessions that they are meant for exactly if none is sent after the pid has a new
owner. -/
theorem run_signals_iff {events : List ExecutorEvent} (hrun : run step {} events = some s) :
    s.OwnSignals ↔ Along step Timely {} events := by
  have hrun' := run_iff_along (fun _ _ _ h hstep => (Linked.step h hstep).1)
    (fun _ _ _ h hstep => (Linked.step h hstep).2) linked_init hrun
  rw [hrun', and_iff_right]
  exact fun signal hsignal => absurd hsignal List.not_mem_nil

instance (s : Executor) (c : StopCall) : Decidable (s.Unused c) :=
  inferInstanceAs (Decidable (∀ pid ∈ c.phase.pid, s.process c.id = some (pid, true) → s.sessions.lookup pid = none))

instance (s : Executor) : (event : ExecutorEvent) → Decidable (s.Timely event)
  | .hangUp call groupGone => inferInstanceAs (Decidable (groupGone = false → ∀ c ∈ s.stops[call]?, s.Unused c))
  | .kill call => inferInstanceAs (Decidable (∀ c ∈ s.stops[call]?, s.Unused c))
  | .start .. | .read .. | .store .. | .emit .. | .eof .. | .wait _ | .takeFlag _ | .remove _ | .copy _ | .insert _
  | .report _ | .getBufferedOutput _ | .lookRunning _ | .lookCompleted _ | .clearExecution _ | .stop .. | .readPid _
  | .exit .. | .vacate _ | .otherStart .. | .otherEnd _ => .isTrue trivial

/-- The process has been waited for, and its pid goes to another session. -/
def reuse : List ExecutorEvent := [.exit 0 none, .wait 0, .vacate 0, .otherStart 7 1]

/-- A pid that gets a new owner before the first signal, and one that gets it during the grace period. -/
theorem run_signals_reused :
    (∃ s, run step {} ([.start 7 true, .stop 0 true, .readPid 0] ++ reuse ++ [.hangUp 0 false]) = some s ∧
      ¬ s.OwnSignals) ∧
    ∃ s, run step {} ([.start 7 true, .stop 0 true, .readPid 0, .hangUp 0 false] ++ reuse ++ [.kill 0]) = some s ∧
      ¬ s.OwnSignals := by
  have hother {s : Executor} (h : decide (⟨0, .other 1⟩ ∈ s.signals) = true) : ¬ s.OwnSignals := by
    intro hown
    cases hown _ (of_decide_eq_true h)
  refine ⟨?_, ?_⟩
  · obtain ⟨s, hrun, hs⟩ := exists_run_of_any
      (show (run step {} ([.start 7 true, .stop 0 true, .readPid 0] ++ reuse ++ [.hangUp 0 false])).any
        (fun s => decide (⟨0, .other 1⟩ ∈ s.signals)) = true by decide)
    exact ⟨s, hrun, hother hs⟩
  · obtain ⟨s, hrun, hs⟩ := exists_run_of_any
      (show (run step {} ([.start 7 true, .stop 0 true, .readPid 0, .hangUp 0 false] ++ reuse ++ [.kill 0])).any
        (fun s => decide (⟨0, .other 1⟩ ∈ s.signals)) = true by decide)
    exact ⟨s, hrun, hother hs⟩

/-- The shell ends after `SIGHUP`, and what is left of its session is killed. -/
theorem run_signals_iff_graceful :
    ∃ s, run step {} [.start 7 true, .stop 0 true, .readPid 0, .hangUp 0 false, .exit 0 none, .wait 0, .kill 0] = some s ∧
      s.signals = [⟨0, .action 0⟩, ⟨0, .action 0⟩] ∧ s.OwnSignals := by
  obtain ⟨s, hrun, hs⟩ := exists_run_of_any
    (show (run step {} [.start 7 true, .stop 0 true, .readPid 0, .hangUp 0 false, .exit 0 none, .wait 0, .kill 0]).any
      (fun s => decide (s.signals = [⟨0, .action 0⟩, ⟨0, .action 0⟩])) = true by decide)
  exact ⟨s, hrun, of_decide_eq_true hs, (run_signals_iff hrun).mpr (by decide)⟩

end Executor

end Builderbot.Actions
