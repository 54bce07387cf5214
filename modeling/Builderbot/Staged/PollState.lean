import Mathlib.Algebra.Ring.Int.Defs
import Mathlib.Algebra.Ring.Nat
import Mathlib.Data.Finset.Basic
import Builderbot.Lib.Table

/-!
# The poll state of the PR-status scheduler

`PollState` of `apps/staged/src-tauri/src/pr_poll_scheduler.rs`: the interest of each client and the
bookkeeping for each project. Every method that needs the time takes it as an argument.

A project is reported as stale when its count of consecutive failures crosses a threshold. The set
`stale` is changed only at the crossing, at a success and by `prune`; `stale_reporting_exact` says
that it nevertheless always holds the projects whose last polls failed often enough.
-/

namespace Builderbot.Staged

/-! ## Constants and arithmetic -/

def PENDING_INTERVAL_MS : Int := 15000
def SELECTED_INTERVAL_MS : Int := 60000
def BACKGROUND_INTERVAL_MS : Int := 5 * 60000
def MAX_CONSECUTIVE_FAILURES : ℕ := 3
def TAURI_CLIENT_ID : String := "tauri-main"
def CLIENT_TTL_MS : Int := 90000

/-- `i64::saturating_sub`. -/
def saturatingSub (a b : Int) : Int := max (-2 ^ 63) (min (2 ^ 63 - 1) (a - b))

/-! ## The state and its operations -/

/-- One connected client's interest. -/
structure ClientInterest where
  foregroundProject : Option String := none
  focused : Bool := false
  /-- Branches this client sees as pending, with their projects. -/
  pendingBranches : Table String String := ∅
  lastSeen : Int := 0
deriving DecidableEq

/-- The poll state: bookkeeping by project and interest by client. -/
structure PollState where
  lastPolledAt : Table String Int
  failures : Table String ℕ
  stale : Finset String
  forced : Finset String
  clients : Table String ClientInterest

namespace PollState

/-- `PollState::new`: the native window is there from the start, and focused. -/
def new : PollState where
  lastPolledAt := ∅
  failures := ∅
  stale := ∅
  forced := ∅
  clients := AList.singleton TAURI_CLIENT_ID { focused := true, lastSeen := 0 }

variable (s : PollState)

/-- `any_focused`. -/
def anyFocused : Bool := s.clients.values.any (·.focused)

/-- `is_foreground`. -/
def isForeground (projectId : String) : Bool :=
  s.clients.values.any fun c => c.foregroundProject = some projectId

/-- `project_has_pending`. -/
def projectHasPending (projectId : String) : Bool :=
  s.clients.values.any fun c => c.pendingBranches.values.any (· = projectId)

/-- `interval_for`. -/
def intervalFor (projectId : String) : Int :=
  if s.projectHasPending projectId then PENDING_INTERVAL_MS
  else if s.isForeground projectId then SELECTED_INTERVAL_MS
  else BACKGROUND_INTERVAL_MS

/-- The test that `due` applies to one project. -/
def isDue (now : Int) (inFlight : Finset String) (id : String) : Bool :=
  if id ∈ inFlight then false
  else if id ∈ s.forced then true
  else if !s.anyFocused then false
  else saturatingSub now ((s.lastPolledAt.lookup id).getD 0) ≥ s.intervalFor id

/-- `due`. -/
def due (projectIds : List String) (now : Int) (inFlight : Finset String) : List String :=
  projectIds.filter (s.isDue now inFlight)

/-- What `prune` leaves of a client's interest. -/
def pruneClient (knownProjects knownBranches : Finset String) (c : ClientInterest) :
    ClientInterest :=
  { c with
    pendingBranches := c.pendingBranches.retain fun branchId projectId =>
      branchId ∈ knownBranches && projectId ∈ knownProjects
    foregroundProject := c.foregroundProject.filter (· ∈ knownProjects) }

/-- `prune`. -/
def prune (knownProjects knownBranches : Finset String) : PollState where
  lastPolledAt := s.lastPolledAt.retain fun k _ => k ∈ knownProjects
  failures := s.failures.retain fun k _ => k ∈ knownProjects
  stale := s.stale.filter (· ∈ knownProjects)
  forced := s.forced.filter (· ∈ knownProjects)
  clients := s.clients.mapValues (pruneClient knownProjects knownBranches)

/-- `record_success`; the flag says that the project left the stale state. -/
def recordSuccess (projectId : String) (now : Int) : PollState × Bool :=
  ({ s with
      lastPolledAt := s.lastPolledAt.insert projectId now
      failures := s.failures.erase projectId
      stale := s.stale.erase projectId },
    projectId ∈ s.stale)

/-- The stored count of consecutive failures of a project. -/
def failureCount (projectId : String) : ℕ := (s.failures.lookup projectId).getD 0

/-- `record_failure`; the flag says that the project entered the stale state. The count is a `u32`
and wraps around. -/
def recordFailure (projectId : String) (now : Int) : PollState × Bool :=
  let count := (s.failureCount projectId + 1) % 2 ^ 32
  let s' : PollState :=
    { s with
      lastPolledAt := s.lastPolledAt.insert projectId now
      failures := s.failures.insert projectId count }
  if count = MAX_CONSECUTIVE_FAILURES then
    ({ s' with stale := insert projectId s.stale }, projectId ∉ s.stale)
  else (s', false)

/-- `self.clients.entry(client_id).or_default()` followed by an update. -/
def updateClient (clientId : String) (f : ClientInterest → ClientInterest) : PollState :=
  { s with clients := s.clients.upsert clientId {} f }

/-- `set_foreground`. -/
def setForeground (clientId : String) (projectId : Option String) (now : Int) : PollState :=
  s.updateClient clientId fun c => { c with foregroundProject := projectId, lastSeen := now }

/-- `set_focus`. -/
def setFocus (clientId : String) (focused : Bool) (now : Int) : PollState :=
  s.updateClient clientId fun c => { c with focused := focused, lastSeen := now }

/-- `set_branch_pending`. -/
def setBranchPending (clientId branchId projectId : String) (pending : Bool) (now : Int) :
    PollState :=
  s.updateClient clientId fun c =>
    { c with
      pendingBranches :=
        if pending then c.pendingBranches.insert branchId projectId
        else c.pendingBranches.erase branchId
      lastSeen := now }

/-- `force`. -/
def force (projectId : String) : PollState := { s with forced := insert projectId s.forced }

/-- `touch`. -/
def touch (clientId : String) (now : Int) : PollState :=
  s.updateClient clientId fun c => { c with lastSeen := now }

/-- `disconnect_client`. -/
def disconnectClient (clientId : String) : PollState :=
  { s with clients := s.clients.erase clientId }

/-- `evict_stale_clients`. -/
def evictStaleClients (now ttlMs : Int) : PollState :=
  { s with clients := s.clients.retain fun id c =>
      id = TAURI_CLIENT_ID || saturatingSub now c.lastSeen ≤ ttlMs }

/-- `state.forced.remove(id)`, which a tick does for each project it starts. -/
def consumeForced (projectId : String) : PollState := { s with forced := s.forced.erase projectId }

end PollState

/-! ## Runs of the state alone -/

/-- The operations that change a `PollState`. -/
inductive PollOp where
  | recordSuccess (projectId : String) (now : Int)
  | recordFailure (projectId : String) (now : Int)
  | prune (knownProjects knownBranches : Finset String)
  | setForeground (clientId : String) (projectId : Option String) (now : Int)
  | setFocus (clientId : String) (focused : Bool) (now : Int)
  | setBranchPending (clientId branchId projectId : String) (pending : Bool) (now : Int)
  | force (projectId : String)
  | touch (clientId : String) (now : Int)
  | disconnectClient (clientId : String)
  | evictStaleClients (now ttlMs : Int)
  | consumeForced (projectId : String)

namespace PollState

/-- The state after an operation. -/
def apply (s : PollState) : PollOp → PollState
  | .recordSuccess p now => (s.recordSuccess p now).1
  | .recordFailure p now => (s.recordFailure p now).1
  | .prune known branches => s.prune known branches
  | .setForeground c p now => s.setForeground c p now
  | .setFocus c focused now => s.setFocus c focused now
  | .setBranchPending c b p pending now => s.setBranchPending c b p pending now
  | .force p => s.force p
  | .touch c now => s.touch c now
  | .disconnectClient c => s.disconnectClient c
  | .evictStaleClients now ttl => s.evictStaleClients now ttl
  | .consumeForced p => s.consumeForced p

/-- The stale event of an operation: the project, and whether it became stale or was cleared. The
completion handler turns the flags of the two `record` methods into it. -/
def report (s : PollState) : PollOp → Option (String × Bool)
  | .recordSuccess p now => if (s.recordSuccess p now).2 then some (p, false) else none
  | .recordFailure p now => if (s.recordFailure p now).2 then some (p, true) else none
  | _ => none

/-- The state after a list of operations from `PollState::new`. -/
def exec (ops : List PollOp) : PollState := ops.foldl apply new

/-- The stale events for one project along a list of operations. -/
def reportsFor (p : String) (s : PollState) : List PollOp → List Bool
  | [] => []
  | op :: ops =>
    match s.report op with
    | some (q, b) => if q = p then b :: reportsFor p (s.apply op) ops
        else reportsFor p (s.apply op) ops
    | none => reportsFor p (s.apply op) ops

end PollState

namespace PollOp

/-- The number of consecutive failures of `p` after an operation, when it was `n` before. Pruning the
project forgets it. -/
def streakStep (p : String) (n : ℕ) : PollOp → ℕ
  | recordSuccess q _ => if q = p then 0 else n
  | recordFailure q _ => if q = p then n + 1 else n
  | prune known _ => if p ∈ known then n else 0
  | _ => n

/-- The number of consecutive failures of `p` at the end of a list of operations: the failures since
the last success of `p` and since it was last pruned. -/
def streak (p : String) (ops : List PollOp) : ℕ := ops.foldl (streakStep p) 0

/-- The operation does not prune `p`. -/
def Keeps (p : String) : PollOp → Prop
  | prune known _ => p ∈ known
  | _ => True

end PollOp

/-- The values alternate, and the first one is `b`. -/
def Alternating (b : Bool) : List Bool → Prop
  | [] => True
  | c :: cs => c = b ∧ Alternating (!b) cs

/-! ## What one operation does to the bookkeeping of a project -/

namespace PollState

variable (s : PollState) (p : String)

theorem failureCount_insert (q : String) (n : ℕ) (m : Table String ℕ) :
    ((m.insert q n).lookup p).getD 0 = if q = p then n else (m.lookup p).getD 0 := by
  by_cases h : q = p
  · subst h
    simp
  · rw [if_neg h, AList.lookup_insert_ne (Ne.symm h)]

theorem recordFailure_failureCount (q : String) (now : Int) :
    (s.recordFailure q now).1.failureCount p
      = if q = p then (s.failureCount p + 1) % 2 ^ 32 else s.failureCount p := by
  have hstored : (s.recordFailure q now).1.failureCount p
      = if q = p then (s.failureCount q + 1) % 2 ^ 32 else s.failureCount p := by
    simp only [recordFailure]
    split <;> exact failureCount_insert p q _ s.failures
  rw [hstored]
  by_cases h : q = p
  · rw [h]
  · rw [if_neg h, if_neg h]

theorem recordFailure_stale (q : String) (now : Int) :
    p ∈ (s.recordFailure q now).1.stale ↔
      p ∈ s.stale ∨ p = q ∧ (s.failureCount q + 1) % 2 ^ 32 = MAX_CONSECUTIVE_FAILURES := by
  simp only [recordFailure]
  split
  · rename_i hcount
    rw [Finset.mem_insert, or_comm]
    exact or_congr_right (and_iff_left hcount).symm
  · rename_i hcount
    exact (or_iff_left fun h => hcount h.2).symm

theorem recordSuccess_failureCount (q : String) (now : Int) :
    (s.recordSuccess q now).1.failureCount p = if q = p then 0 else s.failureCount p := by
  simp only [recordSuccess, failureCount]
  by_cases h : q = p
  · subst h
    simp
  · rw [if_neg h, AList.lookup_erase_ne (Ne.symm h)]

theorem prune_failureCount (known branches : Finset String) :
    (s.prune known branches).failureCount p = if p ∈ known then s.failureCount p else 0 := by
  have hlookup : (s.prune known branches).failures.lookup p
      = if decide (p ∈ known) then s.failures.lookup p else none :=
    Table.lookup_retain_key (fun k => decide (k ∈ known)) s.failures p
  rw [failureCount, hlookup]
  by_cases h : p ∈ known
  · simp [h, failureCount]
  · simp [h]

/-- The bookkeeping of `p` is right when its last polls were `n` failures in a row. -/
structure Counts (s : PollState) (p : String) (n : ℕ) : Prop where
  count : s.failureCount p = n % 2 ^ 32
  stale : p ∈ s.stale ↔ MAX_CONSECUTIVE_FAILURES ≤ n

/-- Only the two `record` methods and `prune` touch the bookkeeping, and each keeps it right. -/
theorem Counts.apply {s : PollState} {p : String} {n : ℕ} (h : s.Counts p n) (op : PollOp) :
    (s.apply op).Counts p (op.streakStep p n) := by
  obtain ⟨hcount, hstale⟩ := h
  cases op with
  | recordSuccess q now =>
    refine ⟨?_, ?_⟩
    · simp only [PollState.apply, recordSuccess_failureCount, PollOp.streakStep]
      split
      · rfl
      · exact hcount
    · simp only [PollState.apply, recordSuccess, Finset.mem_erase, PollOp.streakStep]
      by_cases hq : q = p
      · simp [hq, MAX_CONSECUTIVE_FAILURES]
      · simp [hq, Ne.symm hq, hstale]
  | recordFailure q now =>
    refine ⟨?_, ?_⟩
    · simp only [PollState.apply, recordFailure_failureCount, PollOp.streakStep]
      split
      · rw [hcount, Nat.mod_add_mod]
      · exact hcount
    · simp only [PollState.apply, recordFailure_stale, PollOp.streakStep]
      by_cases hq : q = p
      · subst hq
        rw [hcount, Nat.mod_add_mod, hstale, if_pos rfl]
        simp only [true_and, MAX_CONSECUTIVE_FAILURES]
        -- the wrapped count is 3 at the crossing, and again only when the project is stale
        omega
      · simp [hq, Ne.symm hq, hstale]
  | prune known branches =>
    refine ⟨?_, ?_⟩
    · simp only [PollState.apply, prune_failureCount, PollOp.streakStep]
      split
      · exact hcount
      · rfl
    · simp only [PollState.apply, prune, Finset.mem_filter, PollOp.streakStep]
      by_cases hp : p ∈ known
      · simp [hp, hstale]
      · simp [hp, MAX_CONSECUTIVE_FAILURES]
  | _ => exact ⟨hcount, hstale⟩

/-- In every reachable state the bookkeeping of every project is right. -/
theorem exec_counts (ops : List PollOp) (p : String) : (exec ops).Counts p (PollOp.streak p ops) := by
  have hrun : ∀ (s : PollState) (n : ℕ), s.Counts p n →
      (ops.foldl PollState.apply s).Counts p (ops.foldl (PollOp.streakStep p) n) := by
    induction ops with
    | nil => exact fun s n h => h
    | cons op ops ih => exact fun s n h => ih _ _ (h.apply op)
  exact hrun new 0 ⟨rfl, by simp [new, MAX_CONSECUTIVE_FAILURES]⟩

/-! ## The reported transitions -/

/-- An event for `p` says how its membership in `stale` changes: it carries the membership after the
operation, which is not the one before it. -/
theorem report_spec (op : PollOp) (b : Bool) (h : s.report op = some (p, b)) :
    b = decide (p ∉ s.stale) ∧ (b = true ↔ p ∈ (s.apply op).stale) := by
  cases op with
  | recordSuccess q now =>
    simp only [report, recordSuccess, decide_eq_true_eq] at h
    split at h
    · rename_i hq
      obtain ⟨rfl, rfl⟩ : q = p ∧ false = b := by simpa using h
      simp [hq, PollState.apply, recordSuccess]
    · cases h
  | recordFailure q now =>
    simp only [report] at h
    split at h
    · rename_i hflag
      obtain ⟨rfl, rfl⟩ : q = p ∧ true = b := by simpa using h
      simp only [recordFailure] at hflag
      split at hflag
      · rename_i hcount
        have hq : q ∉ s.stale := by simpa using hflag
        refine ⟨(decide_eq_true hq).symm, iff_of_true rfl ?_⟩
        show q ∈ (s.recordFailure q now).1.stale
        rw [recordFailure_stale]
        exact .inr ⟨rfl, hcount⟩
      · cases hflag
    · cases h
  | _ => cases h

theorem stale_apply_of_report_ne {op : PollOp} (hkeep : op.Keeps p)
    (h : ∀ b, s.report op ≠ some (p, b)) : p ∈ (s.apply op).stale ↔ p ∈ s.stale := by
  cases op with
  | recordSuccess q now =>
    have hq : p ≠ q ∨ p ∉ s.stale := by
      by_contra hcon
      obtain ⟨rfl, hmem⟩ : p = q ∧ p ∈ s.stale := by simpa [not_or] using hcon
      exact h false (by simp [report, recordSuccess, hmem])
    simp only [PollState.apply, recordSuccess, Finset.mem_erase]
    rcases hq with hq | hq
    · simp [hq]
    · simp [hq]
  | recordFailure q now =>
    simp only [PollState.apply, recordFailure_stale]
    constructor
    · rintro (hmem | ⟨rfl, hcount⟩)
      · exact hmem
      · by_contra hmem
        have hflag : (s.recordFailure p now).2 = true := by
          rw [recordFailure, if_pos hcount]
          exact decide_eq_true hmem
        exact h true (if_pos hflag)
    · exact Or.inl
  | prune known branches =>
    have hp : p ∈ known := hkeep
    simp [PollState.apply, prune, hp]
  | _ => exact Iff.rfl

/-- From any state, the events for a project that is never pruned alternate; the first one is
"stale" when the project is not stale yet and "cleared" otherwise. -/
theorem reportsFor_alternating {ops : List PollOp} (hkeep : ∀ op ∈ ops, op.Keeps p) :
    Alternating (decide (p ∉ s.stale)) (reportsFor p s ops) := by
  induction ops generalizing s with
  | nil => exact trivial
  | cons op ops ih =>
    obtain ⟨hop, hops⟩ := List.forall_mem_cons.mp hkeep
    have hrest := ih (s.apply op) hops
    by_cases hrep : ∃ b, s.report op = some (p, b)
    · obtain ⟨b, hb⟩ := hrep
      obtain ⟨hfirst, hafter⟩ := report_spec s p op b hb
      have hflip : decide (p ∉ (s.apply op).stale) = !decide (p ∉ s.stale) := by
        rw [← hfirst]
        cases b <;> simp_all
      simp only [reportsFor, hb, if_true]
      exact ⟨hfirst, hflip ▸ hrest⟩
    · have hsame : decide (p ∉ (s.apply op).stale) = decide (p ∉ s.stale) := by
        simp only [stale_apply_of_report_ne s p hop (not_exists.mp hrep)]
      have hskip : reportsFor p s (op :: ops) = reportsFor p (s.apply op) ops := by
        simp only [reportsFor]
        split
        · rename_i q b hq
          have hne : q ≠ p := by
            rintro rfl
            exact hrep ⟨b, hq⟩
          rw [if_neg hne]
        · rfl
      rw [hskip, ← hsame]
      exact hrest

/-- A project is in `stale` exactly when its last polls were at least `MAX_CONSECUTIVE_FAILURES`
failures in a row (the stored count is that number, as a `u32`); and the events reported for a
project that is never pruned alternate, beginning with "stale", each in agreement with the membership
right after its step. -/
theorem stale_reporting_exact (ops : List PollOp) (p : String) :
    ((p ∈ (exec ops).stale ↔ MAX_CONSECUTIVE_FAILURES ≤ PollOp.streak p ops) ∧
        (exec ops).failureCount p = PollOp.streak p ops % 2 ^ 32) ∧
      ((∀ op ∈ ops, op.Keeps p) →
        Alternating true (reportsFor p new ops) ∧
        ∀ pre op post b, ops = pre ++ op :: post → (exec pre).report op = some (p, b) →
          (b = true ↔ p ∈ (exec (pre ++ [op])).stale)) := by
  have hcounts := exec_counts ops p
  refine ⟨⟨hcounts.stale, hcounts.count⟩, fun hkeep => ⟨?_, ?_⟩⟩
  · have halt := reportsFor_alternating new p hkeep
    simpa [new] using halt
  · intro pre op post b _ hb
    have hlast : exec (pre ++ [op]) = (exec pre).apply op := by simp [exec]
    rw [hlast]
    exact (report_spec (exec pre) p op b hb).2

end PollState

/-- Three failures in a row, a fourth one and a success, with a tick's prune in between. -/
def failingPolls : List PollOp :=
  [.recordFailure "p" 1, .recordFailure "p" 2, .prune {"p"} ∅, .recordFailure "p" 3,
    .recordFailure "p" 4, .recordSuccess "p" 5]

/-- The project is reported stale at the third failure and cleared at the success. -/
theorem stale_reporting_failingPolls :
    Alternating true (PollState.reportsFor "p" .new failingPolls) ∧
      PollState.reportsFor "p" .new failingPolls = [true, false] := by
  have hkeep : ∀ op ∈ failingPolls, op.Keeps "p" := by simp [failingPolls, PollOp.Keeps]
  exact ⟨((PollState.stale_reporting_exact failingPolls "p").2 hkeep).1, by decide⟩

end Builderbot.Staged
