import Builderbot.Git.Types
import Builderbot.Lib.Run
import Builderbot.Lib.Table

/-!
# The agents of the projects

The manager of `apps/penpal/internal/agents/manager.go` starts one agent process for each project. `Start` runs
under the lock of the manager. A goroutine waits for the process to exit and cleans up after it: it removes the
configuration file of the agent, closes `done`, clears the heartbeats and the working marks of the project, and
takes the lock only then, to remove the agent from the map.

A new agent of the project can start when `done` is closed, and the file names of two projects can be the same.
The log `lost` lists what a cleanup takes away from another agent. In every run that meets `Guard` it stays empty.
-/

namespace Builderbot.Penpal

open Git (Text)

/-- `sanitize`. -/
def sanitize (s : Text) : Text := s.map fun c => if c = '/' ∨ c = ' ' then '-' else c

/-- The name of the MCP configuration in the directory for temporary files. -/
def mcpConfigPath (projectName : Text) : Text :=
  "penpal-agent-".toList ++ sanitize projectName ++ ".json".toList

/-- How far the goroutine of an agent has come. -/
inductive MonitorPhase where
  | running
  | exited
  | configRemoved
  | done
  | heartbeatsCleared
  | workingCleared
  | finished
deriving DecidableEq, Repr

def MonitorPhase.rank : MonitorPhase → ℕ
  | .running => 0
  | .exited => 1
  | .configRemoved => 2
  | .done => 3
  | .heartbeatsCleared => 4
  | .workingCleared => 5
  | .finished => 6

structure Agent where
  project : Text
  phase : MonitorPhase
deriving DecidableEq, Repr

/-- A `Start` that holds the lock. -/
structure Starting where
  project : Text
  configWritten : Bool
deriving DecidableEq, Repr

inductive StopPhase where
  | signalling
  | waiting
  | killed
  | returned
deriving DecidableEq, Repr

/-- What the cleanup of an agent has taken away from another one. -/
inductive Loss where
  | registration (cleaner owner : ℕ)
  | mark (cleaner owner : ℕ)
  | config (cleaner owner : ℕ)
deriving DecidableEq, Repr

/-- The manager and the part of the store of comments that it cleans. Agents are numbered as they start, and
each mark has the agent that recorded it, if it was one. -/
structure Manager where
  /-- The agent of each project. -/
  agents : Table Text ℕ := ∅
  procs : List Agent := []
  starting : Option Starting := none
  stops : List (ℕ × StopPhase) := []
  configFiles : List Text := []
  heartbeats : Table Text (Option ℕ) := ∅
  working : Table Text (Option ℕ) := ∅
  lost : List Loss := []

inductive AgentEvent where
  /-- `Start` takes the lock and looks at the agent of the project. -/
  | lockStart (projectName : Text)
  | writeConfig
  /-- The process has started: the agent enters the map and `Start` returns. -/
  | launch
  /-- `Start` returns an error: for a missing project, a file, the pipe or the process. -/
  | failStart
  /-- The next step of the goroutine of an agent, the first of which is that the process exits. -/
  | monitor (i : ℕ)
  | recordHeartbeat (who : Option ℕ) (projectName filePath : Text)
  | setWorking (who : Option ℕ) (project path threadID : Text)
  /-- `Stop` finds the agent. -/
  | stop (projectName : Text)
  | signal (call : ℕ) (sent : Bool)
  /-- Five seconds have passed. -/
  | kill (call : ℕ)
  | returnStop (call : ℕ)

/-- The values that are in the table before and not after. -/
def dropped {β : Type} [DecidableEq β] (before after : Table Text β) : List β :=
  (before.entries.filter fun e => after.lookup e.1 ≠ some e.2).map Sigma.snd

/-- `ClearProjectHeartbeats` and the loop of `ClearProjectWorking`. -/
def clearProject (project : Text) (marks : Table Text (Option ℕ)) : Table Text (Option ℕ) :=
  marks.retain fun key _ => !(project ++ [':']).isPrefixOf key

/-- The agent leaves the map if it is still the same one. -/
def deregister (agents : Table Text ℕ) (project : Text) (i : ℕ) : Table Text ℕ :=
  if agents.lookup project = some i then agents.erase project else agents

variable {marks : Table Text (Option ℕ)}

namespace Manager

variable (s : Manager)

/-- The channel `done` of the agent is closed. -/
def isDone (i : ℕ) : Bool := (s.procs[i]?).any fun a => MonitorPhase.done.rank ≤ a.phase.rank

/-- The agent `j` started after `i` for the same project. -/
def isSuccessor (i j : ℕ) : Bool :=
  i < j && (s.procs[i]?).any fun a => (s.procs[j]?).any fun b => a.project = b.project

/-- The successors of `i` that lose a mark. -/
def markLosses (i : ℕ) (before after : Table Text (Option ℕ)) : List Loss :=
  (dropped before after).filterMap fun who => (who.filter (s.isSuccessor i)).map (.mark i)

/-- The other agents that run, or are about to, with the file that `i` removes. -/
def configLosses (i : ℕ) (path : Text) : List Loss :=
  if path ∈ s.configFiles then
    (((List.range s.procs.length).filter fun j => j ≠ i &&
        (s.procs[j]?).any fun b => b.phase = .running && mcpConfigPath b.project = path) ++
      ((s.starting.filter fun st => st.configWritten && mcpConfigPath st.project = path).map
        fun _ => s.procs.length).toList).map (.config i)
  else []

def setPhase (i : ℕ) (phase : MonitorPhase) : Manager :=
  { s with procs := s.procs.modify i fun a => { a with phase } }

/-- One step of the goroutine of the agent. -/
def monitor (i : ℕ) (a : Agent) : Option Manager :=
  match a.phase with
  | .running => some (s.setPhase i .exited)
  | .exited =>
    let path := mcpConfigPath a.project
    some { s.setPhase i .configRemoved with
      configFiles := s.configFiles.filter fun file => file ≠ path
      lost := s.configLosses i path ++ s.lost }
  | .configRemoved => some (s.setPhase i .done)
  | .done =>
    let heartbeats := clearProject a.project s.heartbeats
    some { s.setPhase i .heartbeatsCleared with
      heartbeats
      lost := s.markLosses i s.heartbeats heartbeats ++ s.lost }
  | .heartbeatsCleared =>
    let working := clearProject a.project s.working
    some { s.setPhase i .workingCleared with
      working
      lost := s.markLosses i s.working working ++ s.lost }
  | .workingCleared =>
    if s.starting.isSome then none
    else
      let agents := deregister s.agents a.project i
      some { s.setPhase i .finished with
        agents
        lost := ((dropped s.agents agents).filter fun j => j ≠ i).map (.registration i) ++ s.lost }
  | .finished => none

/-- One step of a call of `Stop`. -/
def moveStop (call : ℕ) (f : ℕ → StopPhase → Option StopPhase) : Option Manager :=
  (s.stops[call]?).bind fun c => (f c.1 c.2).map fun phase => { s with stops := s.stops.set call (c.1, phase) }

def step : AgentEvent → Option Manager
  | .lockStart projectName =>
    if s.starting.isSome then none
    else
      match s.agents.lookup projectName with
      | some i =>
        if s.isDone i then
          some { s with agents := s.agents.erase projectName, starting := some ⟨projectName, false⟩ }
        else some s
      | none => some { s with starting := some ⟨projectName, false⟩ }
  | .writeConfig =>
    match s.starting with
    | some ⟨projectName, false⟩ =>
      some { s with
        starting := some ⟨projectName, true⟩
        configFiles := mcpConfigPath projectName :: s.configFiles }
    | _ => none
  | .launch =>
    match s.starting with
    | some ⟨projectName, true⟩ =>
      some { s with
        procs := s.procs ++ [⟨projectName, .running⟩]
        agents := s.agents.insert projectName s.procs.length
        starting := none }
    | _ => none
  | .failStart => s.starting.map fun _ => { s with starting := none }
  | .monitor i => (s.procs[i]?).bind (s.monitor i)
  | .recordHeartbeat who projectName filePath =>
    if who.all fun b => b < s.procs.length then
      some { s with heartbeats := s.heartbeats.insert (projectName ++ ':' :: filePath) who }
    else none
  | .setWorking who project path threadID =>
    if who.all fun b => b < s.procs.length then
      some { s with working := s.working.insert (project ++ ':' :: (path ++ ':' :: threadID)) who }
    else none
  | .stop projectName =>
    if s.starting.isSome then none
    else
      match s.agents.lookup projectName with
      | some i => some { s with stops := s.stops ++ [(i, .signalling)] }
      | none => some s
  | .signal call sent =>
    s.moveStop call fun _ phase =>
      if phase = .signalling then some (if sent then .waiting else .returned) else none
  | .kill call => s.moveStop call fun _ phase => if phase = .waiting then some .killed else none
  | .returnStop call =>
    s.moveStop call fun i phase =>
      if (phase = .waiting ∨ phase = .killed) ∧ s.isDone i = true then some .returned else none

/-! ## When the cleanups do not interfere -/

/-- An earlier agent of the project of `b` has yet to come to the phase, and then clears the key. -/
def clearsDue (b : ℕ) (key : Text) (phase : MonitorPhase) : Bool :=
  (s.procs[b]?).any fun own => (own.project ++ [':']).isPrefixOf key &&
    (s.procs.take b).any fun a => a.project = own.project && a.phase.rank < phase.rank

/-- An agent of another project has yet to remove the file of the same name. -/
def sharesConfig (projectName : Text) : Bool :=
  s.procs.any fun a => a.project ≠ projectName && mcpConfigPath a.project = mcpConfigPath projectName &&
    a.phase.rank < MonitorPhase.configRemoved.rank

/-- No configuration is written to a file that an agent of another project will remove, and no agent records a
mark that an earlier one of its project will clear. -/
def Guard : AgentEvent → Prop
  | .writeConfig => s.starting.all (fun st => !s.sharesConfig st.project) = true
  | .recordHeartbeat (some b) projectName filePath =>
    s.clearsDue b (projectName ++ ':' :: filePath) .heartbeatsCleared = false
  | .setWorking (some b) project path threadID =>
    s.clearsDue b (project ++ ':' :: (path ++ ':' :: threadID)) .workingCleared = false
  | _ => True

instance Guard.decidable (s : Manager) : ∀ e, Decidable (s.Guard e)
  | .writeConfig => inferInstanceAs (Decidable (_ = true))
  | .recordHeartbeat (some _) _ _ => inferInstanceAs (Decidable (_ = false))
  | .setWorking (some _) _ _ _ => inferInstanceAs (Decidable (_ = false))
  | .recordHeartbeat none _ _ | .setWorking none _ _ _ | .lockStart _ | .launch | .failStart | .monitor _
  | .stop _ | .signal _ _ | .kill _ | .returnStop _ => inferInstanceAs (Decidable True)

/-- Every agent that runs is the one registered for its project, and no cleanup has taken anything away from
another agent. -/
structure NoInterference (s : Manager) : Prop where
  registered : ∀ i a, s.procs[i]? = some a → a.phase = .running → s.agents.lookup a.project = some i
  lost : s.lost = []

/-! ## The invariant -/

structure Inv (s : Manager) : Prop where
  /-- An agent stays in the map until `done` is closed. -/
  registered : ∀ (i : ℕ) (a : Agent), s.procs[i]? = some a → a.phase.rank < MonitorPhase.done.rank →
    s.agents.lookup a.project = some i
  starting_free : ∀ st ∈ s.starting, s.agents.lookup st.project = none
  /-- Two agents that have yet to remove their files have different files. -/
  config_own : ∀ (i j : ℕ) (a b : Agent), s.procs[i]? = some a → s.procs[j]? = some b → i ≠ j →
    a.phase.rank < MonitorPhase.configRemoved.rank → b.phase.rank < MonitorPhase.configRemoved.rank →
    mcpConfigPath a.project ≠ mcpConfigPath b.project
  config_starting : ∀ st ∈ s.starting, st.configWritten = true → ∀ a ∈ s.procs,
    a.phase.rank < MonitorPhase.configRemoved.rank → mcpConfigPath a.project ≠ mcpConfigPath st.project
  heartbeats : ∀ key b, s.heartbeats.lookup key = some (some b) →
    b < s.procs.length ∧ s.clearsDue b key .heartbeatsCleared = false
  working : ∀ key b, s.working.lookup key = some (some b) →
    b < s.procs.length ∧ s.clearsDue b key .workingCleared = false
  lost : s.lost = []

variable {s} {t : Manager} {i j b : ℕ} {a : Agent} {key : Text} {phase : MonitorPhase}

/-- The invariant says what is asked of a state. -/
theorem Inv.noInterference (h : s.Inv) : s.NoInterference :=
  ⟨fun i a ha hrunning => h.registered i a ha (by rw [hrunning]; decide), h.lost⟩

theorem clearsDue_eq_false_iff :
    s.clearsDue b key phase = false ↔ ∀ own, s.procs[b]? = some own → (own.project ++ [':']) <+: key →
      ∀ i a, i < b → s.procs[i]? = some a → a.project = own.project → phase.rank ≤ a.phase.rank := by
  rw [clearsDue, ← Bool.not_eq_true, Option.any_eq_true]
  constructor
  · intro h own hown hkey i a hi ha hproject
    by_contra hphase
    refine h ⟨own, hown, ?_⟩
    rw [Bool.and_eq_true, List.isPrefixOf_iff_prefix, List.any_eq_true]
    refine ⟨hkey, a, List.mem_iff_getElem?.mpr ⟨i, ?_⟩, ?_⟩
    · rw [List.getElem?_take_of_lt hi, ha]
    · rw [Bool.and_eq_true, decide_eq_true_eq, decide_eq_true_eq]
      exact ⟨hproject, by omega⟩
  · rintro h ⟨own, hown, hdue⟩
    rw [Bool.and_eq_true, List.isPrefixOf_iff_prefix, List.any_eq_true] at hdue
    obtain ⟨hkey, a, hmem, ha⟩ := hdue
    obtain ⟨i, hi⟩ := List.mem_iff_getElem?.mp hmem
    rw [Bool.and_eq_true, decide_eq_true_eq, decide_eq_true_eq] at ha
    rw [List.getElem?_take] at hi
    split at hi
    case isTrue hlt =>
      have hle := h own hown hkey i a hlt hi ha.1
      omega
    case isFalse => cases hi

/-- The agents go on, and new ones start. -/
def Ahead (s t : Manager) : Prop :=
  s.procs.length ≤ t.procs.length ∧ ∀ i a, i < s.procs.length → t.procs[i]? = some a →
    ∃ a', s.procs[i]? = some a' ∧ a'.project = a.project ∧ a'.phase.rank ≤ a.phase.rank

/-- What is no longer due stays so. -/
theorem Ahead.clearsDue (h : Ahead s t) (hb : b < s.procs.length) (hdue : s.clearsDue b key phase = false) :
    t.clearsDue b key phase = false := by
  rw [clearsDue_eq_false_iff] at hdue ⊢
  intro own hown hkey i a hi ha hproject
  obtain ⟨own', hown', hsame, -⟩ := h.2 b own hb hown
  obtain ⟨a', ha', hsame', hle⟩ := h.2 i a (by omega) ha
  have hcleared := hdue own' hown' (by rwa [hsame]) i a' hi ha' (by rw [hsame', hsame, hproject])
  omega

theorem getElem?_setPhase :
    (s.setPhase i phase).procs[j]? = if i = j then (s.procs[j]?).map (fun a => { a with phase }) else s.procs[j]? := by
  rw [setPhase, List.getElem?_modify]
  split <;> simp

theorem setPhase_length : (s.setPhase i phase).procs.length = s.procs.length := by
  rw [setPhase, List.length_modify]

theorem ahead_setPhase (ha : s.procs[i]? = some a) (hphase : a.phase.rank ≤ phase.rank) :
    Ahead s (s.setPhase i phase) := by
  refine ⟨le_of_eq setPhase_length.symm, fun j c _ hc => ?_⟩
  rw [getElem?_setPhase] at hc
  split at hc
  case isTrue hij =>
    subst hij
    rw [ha] at hc
    cases hc
    exact ⟨a, ha, rfl, hphase⟩
  case isFalse => exact ⟨c, hc, rfl, le_rfl⟩

/-! ## What is lost -/

theorem mem_dropped {β : Type} [DecidableEq β] {before after : Table Text β} {v : β} :
    v ∈ dropped before after ↔ ∃ key, before.lookup key = some v ∧ after.lookup key ≠ some v := by
  rw [dropped, List.mem_map]
  constructor
  · rintro ⟨⟨key, v⟩, he, rfl⟩
    rw [List.mem_filter, decide_eq_true_eq] at he
    exact ⟨key, AList.mem_lookup_iff.mpr he.1, he.2⟩
  · rintro ⟨key, hbefore, hafter⟩
    refine ⟨⟨key, v⟩, ?_, rfl⟩
    rw [List.mem_filter, decide_eq_true_eq]
    exact ⟨AList.mem_lookup_iff.mp hbefore, hafter⟩

/-- Clearing takes the marks of one project. -/
theorem lookup_clearProject (project : Text) (marks : Table Text (Option ℕ)) (key : Text) :
    (clearProject project marks).lookup key =
      if (project ++ [':']) <+: key then none else marks.lookup key := by
  rw [clearProject, Table.lookup_retain_key]
  by_cases hkey : (project ++ [':']) <+: key
  · rw [if_pos hkey, List.isPrefixOf_iff_prefix.mpr hkey]
    rfl
  · rw [if_neg hkey]
    have hno : (project ++ [':']).isPrefixOf key = false :=
      Bool.eq_false_iff.mpr fun h => hkey (List.isPrefixOf_iff_prefix.mp h)
    rw [hno]
    rfl

/-- No successor has a mark that the agent still has to clear. -/
theorem markLosses_eq_nil (hmarks : ∀ key b, marks.lookup key = some (some b) →
      b < s.procs.length ∧ s.clearsDue b key phase = false)
    (ha : s.procs[i]? = some a) (hphase : a.phase.rank < phase.rank) :
    s.markLosses i marks (clearProject a.project marks) = [] := by
  rw [markLosses, List.filterMap_eq_nil_iff]
  intro who hwho
  rw [Option.map_eq_none_iff, Option.filter_eq_none_iff]
  rintro b rfl hsuccessor
  obtain ⟨key, hbefore, hafter⟩ := mem_dropped.mp hwho
  have hkey : (a.project ++ [':']) <+: key := by
    by_contra hkey
    rw [lookup_clearProject, if_neg hkey] at hafter
    exact hafter hbefore
  rw [isSuccessor, Bool.and_eq_true, decide_eq_true_eq, ha, Option.any_some, Option.any_eq_true] at hsuccessor
  obtain ⟨hlt, own, hown, hproject⟩ := hsuccessor
  rw [decide_eq_true_eq] at hproject
  have hcleared := clearsDue_eq_false_iff.mp (hmarks key b hbefore).2 own hown (by rwa [← hproject]) i a hlt ha hproject
  omega

/-- No other agent has the file. -/
theorem configLosses_eq_nil (h : s.Inv) (ha : s.procs[i]? = some a)
    (hphase : a.phase.rank < MonitorPhase.configRemoved.rank) : s.configLosses i (mcpConfigPath a.project) = [] := by
  rw [configLosses]
  split
  case isFalse => rfl
  rw [List.map_eq_nil_iff, List.append_eq_nil_iff]
  constructor
  · rw [List.filter_eq_nil_iff]
    intro j _ hj
    rw [Bool.and_eq_true, decide_eq_true_eq, Option.any_eq_true] at hj
    obtain ⟨hne, b, hb, hlive⟩ := hj
    rw [Bool.and_eq_true, decide_eq_true_eq, decide_eq_true_eq] at hlive
    exact h.config_own j i b a hb ha hne (by rw [hlive.1]; decide) hphase hlive.2
  · rw [Option.toList_eq_nil_iff, Option.map_eq_none_iff, Option.filter_eq_none_iff]
    intro st hst hsame
    rw [Bool.and_eq_true, decide_eq_true_eq] at hsame
    exact h.config_starting st hst hsame.1 a (List.mem_of_getElem? ha) hphase hsame.2.symm

/-- An agent takes only itself out of the table. -/
theorem lookup_deregister {agents : Table Text ℕ} {project : Text} (hkey : agents.lookup key ≠ some i) :
    (deregister agents project i).lookup key = agents.lookup key := by
  rw [deregister]
  split
  case isTrue hself =>
    have hne : key ≠ project := by
      rintro rfl
      exact hkey hself
    exact AList.lookup_erase_ne hne
  case isFalse => rfl

/-- An agent takes only itself out of the map. -/
theorem deregistered_self (agents : Table Text ℕ) (project : Text) (i : ℕ) :
    (dropped agents (deregister agents project i)).filter (fun j => j ≠ i) = [] := by
  rw [List.filter_eq_nil_iff]
  intro j hj hne
  rw [decide_eq_true_eq] at hne
  obtain ⟨key, hbefore, hafter⟩ := mem_dropped.mp hj
  rw [lookup_deregister (by rw [hbefore]; simpa using hne)] at hafter
  exact hafter hbefore

/-! ## Every step keeps the invariant -/

/-- A monitor only goes forward. -/
theorem Inv.setPhase (h : s.Inv) (ha : s.procs[i]? = some a) (hphase : a.phase.rank ≤ phase.rank) :
    (s.setPhase i phase).Inv := by
  have hahead := ahead_setPhase ha hphase
  have hlt : ∀ {j c}, (s.setPhase i phase).procs[j]? = some c → j < s.procs.length := by
    intro j c hc
    exact setPhase_length ▸ (List.getElem?_eq_some_iff.mp hc).1
  constructor
  · intro j c hc hrank
    obtain ⟨c', hc', hproject, hle⟩ := hahead.2 j c (hlt hc) hc
    rw [← hproject]
    exact h.registered j c' hc' (by omega)
  · exact h.starting_free
  · intro j k c d hc hd hne hrank hrank'
    obtain ⟨c', hc', hproject, hle⟩ := hahead.2 j c (hlt hc) hc
    obtain ⟨d', hd', hproject', hle'⟩ := hahead.2 k d (hlt hd) hd
    rw [← hproject, ← hproject']
    exact h.config_own j k c' d' hc' hd' hne (by omega) (by omega)
  · intro st hst hwritten c hmem hrank
    obtain ⟨j, hc⟩ := List.mem_iff_getElem?.mp hmem
    obtain ⟨c', hc', hproject, hle⟩ := hahead.2 j c (hlt hc) hc
    rw [← hproject]
    exact h.config_starting st hst hwritten c' (List.mem_of_getElem? hc') (by omega)
  · intro key b hkey
    obtain ⟨hb, hdue⟩ := h.heartbeats key b hkey
    exact ⟨by rwa [setPhase_length], hahead.clearsDue hb hdue⟩
  · intro key b hkey
    obtain ⟨hb, hdue⟩ := h.working key b hkey
    exact ⟨by rwa [setPhase_length], hahead.clearsDue hb hdue⟩
  · exact h.lost

theorem lookup_of_clearProject {project : Text} {who : Option ℕ}
    (h : (clearProject project marks).lookup key = some who) : marks.lookup key = some who := by
  rw [lookup_clearProject] at h
  split at h
  · cases h
  · exact h

theorem Inv.monitor (h : s.Inv) (ha : s.procs[i]? = some a) (hstep : s.monitor i a = some t) : t.Inv := by
  rw [Manager.monitor] at hstep
  cases hphase : a.phase with
  | running | configRemoved =>
    rw [hphase] at hstep
    cases hstep
    exact h.setPhase ha (by rw [hphase]; decide)
  -- the file is removed: no other agent has it, so nothing is lost
  | exited =>
    rw [hphase] at hstep
    cases hstep
    have hset : (s.setPhase i .configRemoved).Inv := h.setPhase ha (by rw [hphase]; decide)
    refine ⟨hset.registered, hset.starting_free, hset.config_own, hset.config_starting, hset.heartbeats,
      hset.working, ?_⟩
    show s.configLosses i (mcpConfigPath a.project) ++ s.lost = []
    rw [configLosses_eq_nil h ha (by rw [hphase]; decide), h.lost, List.append_nil]
  | done =>
    rw [hphase] at hstep
    cases hstep
    have hset : (s.setPhase i .heartbeatsCleared).Inv := h.setPhase ha (by rw [hphase]; decide)
    refine ⟨hset.registered, hset.starting_free, hset.config_own, hset.config_starting,
      fun key b hkey => hset.heartbeats key b (lookup_of_clearProject hkey), hset.working, ?_⟩
    show s.markLosses i s.heartbeats (clearProject a.project s.heartbeats) ++ s.lost = []
    rw [markLosses_eq_nil h.heartbeats ha (by rw [hphase]; decide), h.lost, List.append_nil]
  | heartbeatsCleared =>
    rw [hphase] at hstep
    cases hstep
    have hset : (s.setPhase i .workingCleared).Inv := h.setPhase ha (by rw [hphase]; decide)
    refine ⟨hset.registered, hset.starting_free, hset.config_own, hset.config_starting, hset.heartbeats,
      fun key b hkey => hset.working key b (lookup_of_clearProject hkey), ?_⟩
    show s.markLosses i s.working (clearProject a.project s.working) ++ s.lost = []
    rw [markLosses_eq_nil h.working ha (by rw [hphase]; decide), h.lost, List.append_nil]
  | workingCleared =>
    rw [hphase] at hstep
    dsimp only at hstep
    split at hstep
    · cases hstep
    cases hstep
    have hset : (s.setPhase i .finished).Inv := h.setPhase ha (by rw [hphase]; decide)
    refine ⟨fun j c hc hrank => ?_, fun st hst => ?_, hset.config_own, hset.config_starting, hset.heartbeats,
      hset.working, ?_⟩
    · have hregistered : s.agents.lookup c.project = some j := hset.registered j c hc hrank
      -- an agent that is not done is another one, and stays registered
      have hne : j ≠ i := by
        rintro rfl
        change (s.setPhase j .finished).procs[j]? = some c at hc
        rw [getElem?_setPhase, if_pos rfl, ha] at hc
        cases hc
        exact absurd hrank (by show ¬ MonitorPhase.finished.rank < MonitorPhase.done.rank; decide)
      show (deregister s.agents a.project i).lookup c.project = some j
      rw [lookup_deregister (by rw [hregistered]; simpa using hne), hregistered]
    · have hfree : s.agents.lookup st.project = none := h.starting_free st hst
      show (deregister s.agents a.project i).lookup st.project = none
      rw [lookup_deregister (by rw [hfree]; nofun), hfree]
    · show ((dropped s.agents _).filter _).map _ ++ s.lost = []
      rw [deregistered_self, h.lost]
      rfl
  | finished =>
    rw [hphase] at hstep
    cases hstep

/-- A new agent. Its file is its own by the guard of the step that wrote it. -/
theorem Inv.launch {projectName : Text} (h : s.Inv) (hstarting : s.starting = some ⟨projectName, true⟩) :
    Inv { s with
      procs := s.procs ++ [⟨projectName, .running⟩]
      agents := s.agents.insert projectName s.procs.length
      starting := none } := by
  have hfree : s.agents.lookup projectName = none := h.starting_free _ hstarting
  have hahead : ∀ t : Manager, t.procs = s.procs ++ [⟨projectName, .running⟩] → Ahead s t := by
    intro t ht
    refine ⟨by rw [ht, List.length_append]; omega, fun i a hi ha => ?_⟩
    rw [ht, List.getElem?_append_left hi] at ha
    exact ⟨a, ha, rfl, le_rfl⟩
  -- `config_starting`: nobody else has the file of the agent that starts
  have hown : ∀ a ∈ s.procs, a.phase.rank < MonitorPhase.configRemoved.rank →
      mcpConfigPath a.project ≠ mcpConfigPath projectName := h.config_starting _ hstarting rfl
  constructor
  · intro i a ha hrank
    rcases of_getElem?_concat ha with ha | ⟨rfl, rfl⟩
    · have hregistered := h.registered i a ha hrank
      have hne : a.project ≠ projectName := by
        rintro rfl
        rw [hfree] at hregistered
        cases hregistered
      exact (AList.lookup_insert_ne hne).trans hregistered
    · exact AList.lookup_insert s.agents
  · exact fun st hst => absurd hst (Option.not_mem_none st)
  · intro i j a b ha hb hne hrank hrank'
    rcases of_getElem?_concat ha with ha | ⟨rfl, rfl⟩ <;> rcases of_getElem?_concat hb with hb | ⟨rfl, rfl⟩
    · exact h.config_own i j a b ha hb hne hrank hrank'
    · exact hown a (List.mem_of_getElem? ha) hrank
    · exact (hown b (List.mem_of_getElem? hb) hrank').symm
    · exact absurd rfl hne
  · exact fun st hst => absurd hst (Option.not_mem_none st)
  · intro key b hkey
    obtain ⟨hb, hdue⟩ := h.heartbeats key b hkey
    exact ⟨by rw [List.length_append]; omega, (hahead _ rfl).clearsDue hb hdue⟩
  · intro key b hkey
    obtain ⟨hb, hdue⟩ := h.working key b hkey
    exact ⟨by rw [List.length_append]; omega, (hahead _ rfl).clearsDue hb hdue⟩
  · exact h.lost

/-- A mark is recorded that no earlier agent is about to clear. -/
theorem marks_insert {who : Option ℕ} (hmarks : ∀ key b, marks.lookup key = some (some b) →
      b < s.procs.length ∧ s.clearsDue b key phase = false)
    (hwho : ∀ b, who = some b → b < s.procs.length ∧ s.clearsDue b key phase = false) (key' : Text) (b : ℕ)
    (hlookup : (marks.insert key who).lookup key' = some (some b)) :
    b < s.procs.length ∧ s.clearsDue b key' phase = false := by
  by_cases hkey : key' = key
  · subst hkey
    rw [AList.lookup_insert, Option.some.injEq] at hlookup
    exact hwho b hlookup
  · rw [AList.lookup_insert_ne hkey] at hlookup
    exact hmarks key' b hlookup

/-- A start is begun where no agent is registered. -/
theorem Inv.lockStart (h : s.Inv) {projectName : Text} (hstep : s.step (.lockStart projectName) = some t) :
    t.Inv := by
  simp only [step] at hstep
  split at hstep
  · cases hstep
  split at hstep
  case h_1 i hi =>
    split at hstep
    case isFalse =>
      cases hstep
      exact h
    case isTrue hdone =>
      cases hstep
      refine ⟨fun j a ha hrank => ?_, ?_, h.config_own, ?_, h.heartbeats, h.working, h.lost⟩
      · have hregistered := h.registered j a ha hrank
        have hne : a.project ≠ projectName := by
          rintro rfl
          obtain rfl := Option.some.inj (hi.symm.trans hregistered)
          rw [isDone, ha, Option.any_some, decide_eq_true_eq] at hdone
          omega
        exact (AList.lookup_erase_ne hne).trans hregistered
      · rintro st ⟨rfl⟩
        exact AList.lookup_erase projectName s.agents
      · rintro st ⟨rfl⟩ hwritten
        cases hwritten
  case h_2 hnone =>
    cases hstep
    refine ⟨h.registered, ?_, h.config_own, ?_, h.heartbeats, h.working, h.lost⟩
    · rintro st ⟨rfl⟩
      exact hnone
    · rintro st ⟨rfl⟩ hwritten
      cases hwritten

/-- The file of the agent that starts is nobody else's, by the guard. -/
theorem Inv.writeConfig (h : s.Inv) (hguard : s.Guard .writeConfig) (hstep : s.step .writeConfig = some t) :
    t.Inv := by
  simp only [step] at hstep
  split at hstep
  case h_2 => cases hstep
  case h_1 projectName hstarting =>
    cases hstep
    have hfree : s.agents.lookup projectName = none := h.starting_free _ hstarting
    refine ⟨h.registered, ?_, h.config_own, ?_, h.heartbeats, h.working, h.lost⟩
    · rintro st ⟨rfl⟩
      exact hfree
    · rintro st ⟨rfl⟩ - a ha hrank hsame
      rw [Guard, hstarting, Option.all_some, Bool.not_eq_true', sharesConfig, List.any_eq_false] at hguard
      by_cases hproject : a.project = projectName
      · -- an agent of the same project would still be in the map
        obtain ⟨i, hi⟩ := List.mem_iff_getElem?.mp ha
        have hregistered := h.registered i a hi (lt_trans hrank (by decide))
        rw [hproject, hfree] at hregistered
        cases hregistered
      · apply hguard a ha
        simp only [Bool.and_eq_true, decide_eq_true_eq]
        exact ⟨⟨hproject, hsame⟩, hrank⟩

/-- The calls of `Stop` do not touch the rest. -/
theorem Inv.moveStop (h : s.Inv) {call : ℕ} {f : ℕ → StopPhase → Option StopPhase}
    (hstep : s.moveStop call f = some t) : t.Inv := by
  rw [Manager.moveStop] at hstep
  obtain ⟨c, -, hstep⟩ := Option.bind_eq_some_iff.mp hstep
  obtain ⟨phase, -, rfl⟩ := Option.map_eq_some_iff.mp hstep
  exact ⟨h.registered, h.starting_free, h.config_own, h.config_starting, h.heartbeats, h.working, h.lost⟩

theorem Inv.step (h : s.Inv) {e : AgentEvent} (hguard : s.Guard e) (hstep : s.step e = some t) : t.Inv := by
  cases e with
  | lockStart projectName => exact h.lockStart hstep
  | writeConfig => exact h.writeConfig hguard hstep
  | launch =>
    simp only [Manager.step] at hstep
    split at hstep
    case h_1 projectName hstarting =>
      cases hstep
      exact h.launch hstarting
    case h_2 => cases hstep
  | failStart =>
    rw [Manager.step] at hstep
    obtain ⟨st, -, rfl⟩ := Option.map_eq_some_iff.mp hstep
    exact ⟨h.registered, fun st hst => absurd hst (Option.not_mem_none st), h.config_own,
      fun st hst => absurd hst (Option.not_mem_none st), h.heartbeats, h.working, h.lost⟩
  | monitor i =>
    rw [Manager.step] at hstep
    obtain ⟨a, ha, hstep⟩ := Option.bind_eq_some_iff.mp hstep
    exact h.monitor ha hstep
  -- a mark is set by an agent whose clearing is still to come
  | recordHeartbeat who projectName filePath =>
    rw [Manager.step] at hstep
    split at hstep
    case isFalse => cases hstep
    case isTrue hwho =>
      cases hstep
      refine ⟨h.registered, h.starting_free, h.config_own, h.config_starting,
        marks_insert h.heartbeats ?_, h.working, h.lost⟩
      rintro b rfl
      exact ⟨of_decide_eq_true hwho, hguard⟩
  | setWorking who project path threadID =>
    rw [Manager.step] at hstep
    split at hstep
    case isFalse => cases hstep
    case isTrue hwho =>
      cases hstep
      refine ⟨h.registered, h.starting_free, h.config_own, h.config_starting, h.heartbeats,
        marks_insert h.working ?_, h.lost⟩
      rintro b rfl
      exact ⟨of_decide_eq_true hwho, hguard⟩
  | stop projectName =>
    simp only [Manager.step] at hstep
    split at hstep
    · cases hstep
    split at hstep
    · cases hstep
      exact ⟨h.registered, h.starting_free, h.config_own, h.config_starting, h.heartbeats, h.working, h.lost⟩
    · cases hstep
      exact h
  | signal | kill | returnStop =>
    rw [Manager.step] at hstep
    exact h.moveStop hstep

/-- A new manager has no agents. -/
theorem inv_new : Inv {} where
  registered := fun i a ha => by cases ha
  starting_free := fun st hst => absurd hst (Option.not_mem_none st)
  config_own := fun i j a b ha => by cases ha
  config_starting := fun st hst => absurd hst (Option.not_mem_none st)
  heartbeats := fun key b hkey => by cases hkey
  working := fun key b hkey => by cases hkey
  lost := rfl

/-- In every run that meets the guard, the agents do not interfere. -/
theorem run_noInterference {events : List AgentEvent} (hguard : Along Manager.step Manager.Guard {} events)
    (hrun : run Manager.step {} events = some t) : t.NoInterference :=
  (run_invariant_along (fun _ _ _ hs hg hstep => Inv.step hs hg hstep) inv_new hguard hrun).noInterference

/-- The events of a `Start` that succeeds. -/
def startEvents (projectName : Text) : List AgentEvent := [.lockStart projectName, .writeConfig, .launch]

/-- An agent is replaced before it has left the map, after it has cleared the marks. -/
theorem run_noInterference_replaced :
    let events := startEvents ['a', '/', 'b'] ++ [.recordHeartbeat (some 0) ['a', '/', 'b'] ['f'],
      .stop ['a', '/', 'b'], .signal 0 true] ++ List.replicate 5 (.monitor 0) ++
      [.returnStop 0] ++ startEvents ['a', '/', 'b'] ++
      [.recordHeartbeat (some 1) ['a', '/', 'b'] ['f'], .monitor 0]
    ∃ t : Manager, run Manager.step {} events = some t ∧
      (t.agents.lookup ['a', '/', 'b'] = some 1 ∧ t.heartbeats.values = [some 1]) ∧ t.NoInterference := by
  intro events
  obtain ⟨t, hrun, ht⟩ : ∃ t, run Manager.step {} events = some t ∧
      decide (t.agents.lookup ['a', '/', 'b'] = some 1 ∧ t.heartbeats.values = [some 1]) = true :=
    exists_run_of_any (by decide)
  exact ⟨t, hrun, of_decide_eq_true ht, run_noInterference (by decide) hrun⟩

/-- An agent clears the heartbeat and the working mark of its successor, and one of another project removes the
file of an agent that runs. -/
theorem cleanup_interferes :
    (∃ t : Manager, run Manager.step {} (startEvents ['p'] ++ List.replicate 3 (.monitor 0) ++ startEvents ['p'] ++
        [.recordHeartbeat (some 1) ['p'] ['f'], .setWorking (some 1) ['p'] ['f'] ['t'], .monitor 0, .monitor 0]) =
          some t ∧ t.lost = [.mark 0 1, .mark 0 1] ∧ ¬ t.NoInterference) ∧
    ∃ t : Manager, run Manager.step {} (startEvents ['a', '/', 'b'] ++ startEvents ['a', ' ', 'b'] ++
        [.monitor 0, .monitor 0]) = some t ∧ t.lost = [.config 0 1] ∧ ¬ t.NoInterference := by
  constructor
  · obtain ⟨t, hrun, ht⟩ : ∃ t, run Manager.step {} (startEvents ['p'] ++ List.replicate 3 (.monitor 0) ++
        startEvents ['p'] ++ [.recordHeartbeat (some 1) ['p'] ['f'], .setWorking (some 1) ['p'] ['f'] ['t'],
          .monitor 0, .monitor 0]) = some t ∧ decide (t.lost = [.mark 0 1, .mark 0 1]) = true :=
      exists_run_of_any (by decide)
    have hlost := of_decide_eq_true ht
    exact ⟨t, hrun, hlost, fun h => by rw [h.lost] at hlost; cases hlost⟩
  · obtain ⟨t, hrun, ht⟩ : ∃ t, run Manager.step {} (startEvents ['a', '/', 'b'] ++ startEvents ['a', ' ', 'b'] ++
        [.monitor 0, .monitor 0]) = some t ∧ decide (t.lost = [.config 0 1]) = true :=
      exists_run_of_any (by decide)
    have hlost := of_decide_eq_true ht
    exact ⟨t, hrun, hlost, fun h => by rw [h.lost] at hlost; cases hlost⟩

end Manager

end Builderbot.Penpal
