import Builderbot.Lib.Run
import Builderbot.Staged.PollState

/-!
# The tick loop of the PR-status scheduler

`PrPollScheduler` and `tick` of `apps/staged/src-tauri/src/pr_poll_scheduler.rs`, with the refresh
tasks that a tick spawns. The hint commands take the `state` lock, a tick takes `in_flight` and then
`state` for the whole of its decision, and the completion handler of a task takes the two locks one
after the other. Each critical section is one step here, so a completion is two steps and anything
may fall between them.
-/

namespace Builderbot.Staged

/-- Where a spawned refresh stands: it is fetching, or it has recorded its result and has not yet
cleared its in-flight marker. -/
inductive RefreshPhase where
  | refreshing
  | recorded
deriving DecidableEq, Repr

/-- A spawned refresh that has not finished. -/
structure RefreshTask where
  projectId : String
  phase : RefreshPhase
deriving DecidableEq, Repr

/-- What a tick reads before it takes the locks: the projects and branches of the database and the
time. Project ids are a primary key. -/
structure TickInput where
  projectIds : List String
  branchIds : List String
  now : Int
  nodup : projectIds.Nodup

/-- The scheduler together with the refreshes it has spawned. -/
structure PrPollScheduler where
  state : PollState
  inFlight : Finset String
  tasks : List RefreshTask

/-- The steps of the system: the critical sections of the hint commands, of a tick and of a task's
completion handler. -/
inductive SchedulerStep where
  | setForeground (clientId : String) (projectId : Option String) (now : Int)
  | setFocus (clientId : String) (focused : Bool) (now : Int)
  | setBranchPending (clientId branchId projectId : String) (pending : Bool) (now : Int)
  | force (projectId : String)
  | touch (clientId : String) (now : Int)
  | disconnectClient (clientId : String)
  | tick (input : TickInput)
  | record (projectId : String) (success : Bool) (now : Int)
  | clearInFlight (projectId : String)

variable {s : PrPollScheduler} {input : TickInput}

namespace PrPollScheduler

/-- `PrPollScheduler::new`. -/
def new : PrPollScheduler := ⟨.new, ∅, []⟩

/-- The poll state of a tick after `evict_stale_clients` and `prune`. -/
def swept (s : PrPollScheduler) (input : TickInput) : PollState :=
  (s.state.evictStaleClients input.now CLIENT_TTL_MS).prune
    input.projectIds.toFinset input.branchIds.toFinset

/-- The projects a tick finds due and starts. -/
def started (s : PrPollScheduler) (input : TickInput) : List String :=
  (s.swept input).due input.projectIds input.now s.inFlight

/-- `tick`: sweep, decide, and for each due project mark it in flight, consume its nudge and spawn a
refresh. -/
def tick (s : PrPollScheduler) (input : TickInput) : PrPollScheduler where
  state := (s.started input).foldl PollState.consumeForced (s.swept input)
  inFlight := (s.started input).foldl (fun marked id => insert id marked) s.inFlight
  tasks := s.tasks ++ (s.started input).map fun id => ⟨id, .refreshing⟩

/-- One step. A completion step needs a task in the right phase; every other step is always
possible. A tick that fails to read the database does nothing and is no step. -/
def step (s : PrPollScheduler) : SchedulerStep → Option PrPollScheduler
  | .setForeground c p now => some { s with state := s.state.setForeground c p now }
  | .setFocus c focused now => some { s with state := s.state.setFocus c focused now }
  | .setBranchPending c b p pending now =>
    some { s with state := s.state.setBranchPending c b p pending now }
  | .force p => some { s with state := s.state.force p }
  | .touch c now => some { s with state := s.state.touch c now }
  | .disconnectClient c => some { s with state := s.state.disconnectClient c }
  | .tick input => some (s.tick input)
  | .record p success now =>
    if ⟨p, .refreshing⟩ ∈ s.tasks then
      some { s with
        state := if success then (s.state.recordSuccess p now).1
          else (s.state.recordFailure p now).1
        tasks := s.tasks.replace ⟨p, .refreshing⟩ ⟨p, .recorded⟩ }
    else none
  | .clearInFlight p =>
    if ⟨p, .recorded⟩ ∈ s.tasks then
      some { s with
        inFlight := s.inFlight.erase p
        tasks := s.tasks.erase ⟨p, .recorded⟩ }
    else none

/-- The refreshes of a project that are in flight. -/
def refreshesOf (s : PrPollScheduler) (p : String) : List RefreshTask :=
  s.tasks.filter (·.projectId = p)

/-! ## What a tick does -/

theorem not_inFlight_of_started {p : String} (h : p ∈ s.started input) : p ∉ s.inFlight := by
  intro hp
  have hdue : (s.swept input).isDue input.now s.inFlight p = true := (List.mem_filter.mp h).2
  simp [PollState.isDue, hp] at hdue

theorem started_nodup (s : PrPollScheduler) (input : TickInput) : (s.started input).Nodup :=
  input.nodup.filter _

theorem mem_tick_inFlight {p : String} :
    p ∈ (s.tick input).inFlight ↔ p ∈ s.inFlight ∨ p ∈ s.started input := by
  have hfold : ∀ (ids : List String) (marked : Finset String),
      p ∈ ids.foldl (fun marked id => insert id marked) marked ↔ p ∈ marked ∨ p ∈ ids := by
    intro ids
    induction ids with
    | nil => simp
    | cons id ids ih =>
      intro marked
      rw [List.foldl_cons, ih, Finset.mem_insert, List.mem_cons]
      tauto
  exact hfold _ _

theorem mem_tick_forced {p : String} : p ∈ (s.tick input).state.forced ↔
      p ∈ s.state.forced ∧ p ∈ input.projectIds ∧ p ∉ s.started input := by
  have hfold : ∀ (ids : List String) (st : PollState),
      p ∈ (ids.foldl PollState.consumeForced st).forced ↔ p ∈ st.forced ∧ p ∉ ids := by
    intro ids
    induction ids with
    | nil => simp
    | cons id ids ih =>
      intro st
      rw [List.foldl_cons, ih, List.mem_cons, PollState.consumeForced, Finset.mem_erase]
      tauto
  have hswept : p ∈ (s.swept input).forced ↔ p ∈ s.state.forced ∧ p ∈ input.projectIds := by
    simp [swept, PollState.prune, PollState.evictStaleClients]
  rw [tick, hfold, hswept, and_assoc]

/-! ## At most one refresh for each project -/

/-- No two refreshes are for the same project, and every one of them is marked in flight. -/
structure SingleFlight (s : PrPollScheduler) : Prop where
  nodup : (s.tasks.map RefreshTask.projectId).Nodup
  marked : ∀ t ∈ s.tasks, t.projectId ∈ s.inFlight

theorem SingleFlight.tick {s : PrPollScheduler} (h : s.SingleFlight) (input : TickInput) :
    (s.tick input).SingleFlight := by
  have hids : ((s.started input).map fun id => (⟨id, .refreshing⟩ : RefreshTask)).map
      RefreshTask.projectId = s.started input := by
    rw [List.map_map]
    exact List.map_id _
  refine ⟨?_, ?_⟩
  · simp only [PrPollScheduler.tick]
    rw [List.map_append, hids, List.nodup_append]
    refine ⟨h.nodup, started_nodup s input, ?_⟩
    -- `due` skips marked projects, so a started one has no task yet
    intro p hp q hq hpq
    obtain ⟨t, ht, rfl⟩ := List.mem_map.mp hp
    exact not_inFlight_of_started (hpq ▸ hq) (h.marked t ht)
  · intro t ht
    rw [mem_tick_inFlight]
    rcases List.mem_append.mp ht with ht | ht
    · exact .inl (h.marked t ht)
    · obtain ⟨id, hid, rfl⟩ := List.mem_map.mp ht
      exact .inr hid

/-- Replacing a task by one for the same project keeps the list of projects. -/
theorem map_projectId_replace (ts : List RefreshTask) (p : String) (a b : RefreshPhase) :
    (ts.replace ⟨p, a⟩ ⟨p, b⟩).map RefreshTask.projectId = ts.map RefreshTask.projectId := by
  induction ts with
  | nil => rfl
  | cons t ts ih =>
    by_cases ht : (⟨p, a⟩ : RefreshTask) = t
    · simp [← ht]
    · have hne : ((⟨p, a⟩ : RefreshTask) == t) = false := by simpa using ht
      simp [List.replace_cons, hne, ih]

theorem SingleFlight.record {s : PrPollScheduler} (h : s.SingleFlight) (p : String)
    (a b : RefreshPhase) (st : PollState) :
    SingleFlight { s with state := st, tasks := s.tasks.replace ⟨p, a⟩ ⟨p, b⟩ } := by
  have hmap := map_projectId_replace s.tasks p a b
  refine ⟨by rw [hmap]; exact h.nodup, ?_⟩
  intro t ht
  have hmem : t.projectId ∈ s.tasks.map RefreshTask.projectId := by
    rw [← hmap]
    exact List.mem_map_of_mem ht
  obtain ⟨t', ht', heq⟩ := List.mem_map.mp hmem
  exact heq ▸ h.marked t' ht'

/-- A finished task takes its marker with it; no other task relies on that marker. -/
theorem SingleFlight.clear {s : PrPollScheduler} (h : s.SingleFlight) {p : String}
    (hp : ⟨p, .recorded⟩ ∈ s.tasks) :
    SingleFlight
      { s with inFlight := s.inFlight.erase p, tasks := s.tasks.erase ⟨p, .recorded⟩ } := by
  have hperm := (List.perm_cons_erase hp).map RefreshTask.projectId
  have hnodup := hperm.nodup_iff.mp h.nodup
  rw [List.map_cons, List.nodup_cons] at hnodup
  refine ⟨hnodup.2, ?_⟩
  intro t ht
  -- the finished task was the only one of its project
  have hne : t.projectId ≠ p := by
    intro heq
    have hmem : t.projectId ∈ (s.tasks.erase ⟨p, .recorded⟩).map RefreshTask.projectId :=
      List.mem_map_of_mem ht
    exact hnodup.1 (heq ▸ hmem)
  exact Finset.mem_erase.mpr ⟨hne, h.marked t (List.mem_of_mem_erase ht)⟩

theorem SingleFlight.step (s : PrPollScheduler) (l : SchedulerStep) (t : PrPollScheduler)
    (h : s.SingleFlight) (hstep : s.step l = some t) : t.SingleFlight := by
  cases l with
  | tick input =>
    obtain rfl : s.tick input = t := by simpa [PrPollScheduler.step] using hstep
    exact h.tick input
  | record p success now =>
    simp only [PrPollScheduler.step] at hstep
    split at hstep
    · obtain rfl := Option.some.inj hstep
      exact h.record p .refreshing .recorded _
    · cases hstep
  | clearInFlight p =>
    simp only [PrPollScheduler.step] at hstep
    split at hstep
    · rename_i hp
      obtain rfl := Option.some.inj hstep
      exact h.clear hp
    · cases hstep
  | _ =>
    obtain rfl := Option.some.inj hstep
    exact ⟨h.nodup, h.marked⟩

theorem SingleFlight.refreshesOf_le {s : PrPollScheduler} (h : s.SingleFlight) (p : String) :
    (s.refreshesOf p).length ≤ 1 := by
  have hcount : (s.refreshesOf p).length = (s.tasks.map RefreshTask.projectId).count p := by
    rw [refreshesOf, ← List.countP_eq_length_filter, List.count, List.countP_map]
    exact List.countP_congr (by simp)
  rw [hcount]
  exact List.nodup_iff_count_le_one.mp h.nodup p

/-! ## No nudge is lost -/

/-- The ways in which a tick can use up a nudge for `p`: it starts a refresh of `p` where there was
none, or `p` is not in its project list. -/
def Answers (p : String) (s : PrPollScheduler) : SchedulerStep → Prop
  | .tick input =>
    (s.refreshesOf p = [] ∧ (⟨p, .refreshing⟩ : RefreshTask) ∈ (s.tick input).tasks) ∨
      p ∉ input.projectIds
  | _ => False

/-- One step keeps a nudge or answers it. -/
theorem forced_step {p : String} (s : PrPollScheduler) (l : SchedulerStep) (t : PrPollScheduler)
    (h : s.SingleFlight ∧ p ∈ s.state.forced) (hstep : s.step l = some t) :
    (t.SingleFlight ∧ p ∈ t.state.forced) ∨ Answers p s l := by
  obtain ⟨hflight, hforced⟩ := h
  have ht : t.SingleFlight := hflight.step s l t hstep
  cases l with
  | tick input =>
    obtain rfl : s.tick input = t := by simpa [PrPollScheduler.step] using hstep
    by_cases hlisted : p ∈ input.projectIds
    · by_cases hstart : p ∈ s.started input
      · -- the tick starts `p`, which therefore was not in flight
        refine .inr (.inl ⟨?_, ?_⟩)
        · rw [refreshesOf, List.filter_eq_nil_iff]
          intro task htask hp
          have hp : task.projectId = p := by simpa using hp
          exact not_inFlight_of_started hstart (hp ▸ hflight.marked task htask)
        · exact List.mem_append_right _ (List.mem_map.mpr ⟨p, hstart, rfl⟩)
      · -- only the projects a tick starts lose their nudge
        exact .inl ⟨ht, mem_tick_forced.mpr ⟨hforced, hlisted, hstart⟩⟩
    · exact .inr (.inr hlisted)
  | force q =>
    obtain rfl := Option.some.inj hstep
    exact .inl ⟨ht, Finset.mem_insert_of_mem hforced⟩
  | record q success now =>
    simp only [PrPollScheduler.step] at hstep
    split at hstep
    · obtain rfl := Option.some.inj hstep
      refine .inl ⟨ht, ?_⟩
      -- neither `record` method touches the nudges
      cases success
      · simp only [Bool.false_eq_true, if_false, PollState.recordFailure]
        split <;> exact hforced
      · exact hforced
    · cases hstep
  | clearInFlight q =>
    simp only [PrPollScheduler.step] at hstep
    split at hstep
    · obtain rfl := Option.some.inj hstep
      exact .inl ⟨ht, hforced⟩
    · cases hstep
  | _ =>
    obtain rfl := Option.some.inj hstep
    exact .inl ⟨ht, hforced⟩

/-- In every state that any order of steps can reach, at most one refresh of each project is in
flight; and from there, after `force p` and any further steps, the nudge is still there or one of
these steps was a tick that answered it. -/
theorem single_flight_and_no_lost_nudge (ls : List SchedulerStep) (s : PrPollScheduler)
    (h : run step new ls = some s) (p : String) :
    (s.refreshesOf p).length ≤ 1 ∧
      ∀ ls' t, run step s (.force p :: ls') = some t →
        p ∈ t.state.forced ∨
          ∃ pre input post u, ls' = pre ++ .tick input :: post ∧
            run step s (.force p :: pre) = some u ∧ Answers p u (.tick input) := by
  have hnew : new.SingleFlight := ⟨List.nodup_nil, by simp [new]⟩
  have hs : s.SingleFlight := run_invariant SingleFlight.step hnew h
  refine ⟨hs.refreshesOf_le p, ?_⟩
  intro ls' t ht
  obtain ⟨v, hv, hrun⟩ := run_cons_eq_some.mp ht
  have hforced : v.SingleFlight ∧ p ∈ v.state.forced := by
    refine ⟨hs.step s _ v hv, ?_⟩
    obtain rfl := Option.some.inj hv
    exact Finset.mem_insert_self p _
  rcases run_until forced_step hforced hrun with hend | ⟨pre, l, post, u, rfl, hpre, hans⟩
  · exact .inl hend.2
  · cases l with
    | tick input =>
      exact .inr ⟨pre, input, post, u, rfl, run_cons_eq_some.mpr ⟨v, hv, hpre⟩, hans⟩
    | _ => exact hans.elim

/-- A nudge that arrives while the project is refreshing and is answered by the next tick. -/
def nudgedRefresh : List SchedulerStep :=
  let input : TickInput := ⟨["p"], [], 300000, by simp⟩
  [.tick input, .force "p", .record "p" true 301000, .clearInFlight "p", .tick input]

/-- The second refresh is the only one in flight at the end. -/
theorem nudgedRefresh_single_flight :
    ∃ s, run step new nudgedRefresh = some s ∧ s.tasks = [⟨"p", .refreshing⟩] ∧
      (s.refreshesOf "p").length ≤ 1 := by
  have htasks : (run step new nudgedRefresh).map (·.tasks) = some [⟨"p", .refreshing⟩] := by decide
  obtain ⟨s, hs, heq⟩ := Option.map_eq_some_iff.mp htasks
  exact ⟨s, hs, heq, (single_flight_and_no_lost_nudge nudgedRefresh s hs "p").1⟩

end PrPollScheduler

end Builderbot.Staged
