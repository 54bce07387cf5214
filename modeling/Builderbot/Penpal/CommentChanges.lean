import Builderbot.Git.Types
import Builderbot.Lib.Run

/-!
# Waiting for comment changes

The comment store of `apps/penpal/internal/comments` counts changes and wakes everyone who waits for one by
closing a channel. The tool `penpal_wait_for_changes` of `apps/penpal/internal/mcpserver/tools.go` waits for
the next change, or for a timeout, and answers with the files in review. An agent calls it in a loop and
passes the number of the last answer.

The store is locked only to read or change the number, so that changes can happen between the steps of a
wait. A wait that ends with the timeout reads the number again: a change that it has not seen is then
counted as known.
-/

namespace Builderbot.Penpal

open Git (Text)

/-! ## The store -/

structure Comment where
  id : Text
  /-- The role is `human` and not `agent`. -/
  human : Bool
deriving DecidableEq, Repr

structure Thread where
  id : Text
  /-- The status is `open` and not `resolved`. -/
  isOpen : Bool
  comments : List Comment
deriving DecidableEq, Repr

/-- A file with comments. -/
structure Sidecar where
  filePath : Text
  threads : List Thread
  sourceExists : Bool
deriving DecidableEq, Repr

structure FileInReview where
  filePath : Text
  openThreads : ℕ
deriving DecidableEq, Repr

/-- The loop of `ListFilesInReviewForWorktree`. -/
def listFilesInReview (disk : List Sidecar) : List FileInReview :=
  disk.filterMap fun sidecar =>
    let openCount := sidecar.threads.countP Thread.isOpen
    if sidecar.sourceExists = false ∨ openCount = 0 then none else some ⟨sidecar.filePath, openCount⟩

/-- A thread that is open and whose last comment is not the agent's. -/
def Thread.awaitsResponse (thread : Thread) : Bool :=
  thread.isOpen && (thread.comments.getLast?.map Comment.human).getD false

/-- The threads of a file that wait for a response. -/
def pendingThreads (disk : List Sidecar) (file : FileInReview) : List Thread :=
  ((disk.find? fun sidecar => sidecar.filePath = file.filePath).map Sidecar.threads).getD []
    |>.filter Thread.awaitsResponse

structure FileWithThreads where
  file : FileInReview
  threads : List Thread
deriving DecidableEq, Repr

/-! ## The system -/

/-- An answer of `penpal_wait_for_changes`. The numbers `begunAt` and `loadedAt` are not sent: they are the
number of changes when the call began and when the files were read. -/
structure Response where
  changed : Bool
  seq : ℕ
  files : List FileWithThreads
  begunAt : ℕ
  loadedAt : ℕ
deriving DecidableEq, Repr

/-- Where the agent is in its call, which began at the change `begunAt`. -/
inductive AgentPhase where
  | idle
  /-- Before `WaitForChangeSince` locks the store. -/
  | called (begunAt : ℕ)
  /-- In the `select`, with the channel it has read. -/
  | waiting (begunAt channel : ℕ)
  /-- A case of the `select` was taken, that of the context if `timedOut`. -/
  | selected (begunAt channel : ℕ) (timedOut : Bool)
  /-- `WaitForChangeSince` has returned. -/
  | woken (begunAt seq : ℕ) (changed : Bool)
  /-- The files in review were read. -/
  | listed (begunAt seq : ℕ) (changed : Bool) (files : List FileInReview) (loadedAt : ℕ)
deriving DecidableEq, Repr

structure ChangeState where
  /-- A 64-bit number. -/
  changeSeq : ℕ := 0
  /-- The channels are numbered as they are made; all but the last one are closed. -/
  changed : ℕ := 0
  disk : List Sidecar := []
  agent : AgentPhase := .idle
  /-- The number that the agent passes with the next call. -/
  sinceSeq : ℕ := 0
  /-- The context of the call is done. -/
  ctxDone : Bool := false
  /-- The answers, the last one first. -/
  responses : List Response := []
deriving DecidableEq, Repr

inductive ChangeEvent where
  /-- Files are written, as by `SaveForWorktree` before it notifies. -/
  | write (disk : List Sidecar)
  | notifyChange
  | call
  | check
  /-- The context is cancelled or its time is over. -/
  | expire
  | select (timedOut : Bool)
  | reread
  /-- The files are listed, or the project is not found. -/
  | list (found : Bool)
  | respond
deriving DecidableEq, Repr

namespace ChangeState

/-- `NotifyChange`. -/
def notifyChange (s : ChangeState) : ChangeState :=
  { s with changeSeq := (s.changeSeq + 1) % 2 ^ 64, changed := s.changed + 1 }

/-- The first critical section of `WaitForChangeSince`. -/
def check (s : ChangeState) (begunAt : ℕ) : AgentPhase :=
  if s.sinceSeq < s.changeSeq then .woken begunAt s.changeSeq true else .waiting begunAt s.changed

/-- The answer. The threads are added if something changed. -/
def response (s : ChangeState) (begunAt seq : ℕ) (changed : Bool) (files : List FileInReview)
    (loadedAt : ℕ) : Response where
  changed
  seq
  files := files.map fun file => ⟨file, if changed then pendingThreads s.disk file else []⟩
  begunAt
  loadedAt

/-- A case of the `select` is ready. -/
def ready (s : ChangeState) (channel : ℕ) (timedOut : Bool) : Bool :=
  if timedOut then s.ctxDone else channel < s.changed

/-- The steps of writers, of the clock, and of the agent. -/
def step (s : ChangeState) : ChangeEvent → Option ChangeState
  | .write disk => some { s with disk }
  | .notifyChange => some s.notifyChange
  | .expire => some { s with ctxDone := true }
  | .call =>
    match s.agent with
    | .idle => some { s with agent := .called s.changeSeq, ctxDone := false }
    | _ => none
  | .check =>
    match s.agent with
    | .called begunAt => some { s with agent := s.check begunAt }
    | _ => none
  | .select timedOut =>
    match s.agent with
    | .waiting begunAt channel =>
      -- a case is taken at random among those that are ready
      if s.ready channel timedOut then some { s with agent := .selected begunAt channel timedOut }
      else none
    | _ => none
  | .reread =>
    match s.agent with
    | .selected begunAt _ timedOut => some { s with agent := .woken begunAt s.changeSeq (!timedOut) }
    | _ => none
  | .list found =>
    match s.agent with
    | .woken begunAt seq changed =>
      some { s with
        agent := if found then .listed begunAt seq changed (listFilesInReview s.disk) s.changeSeq
          else .idle }
    | _ => none
  | .respond =>
    match s.agent with
    | .listed begunAt seq changed files loadedAt =>
      some { s with
        agent := .idle
        sinceSeq := seq
        responses := s.response begunAt seq changed files loadedAt :: s.responses }
    | _ => none

end ChangeState

/-- What the agent does next while nothing goes wrong. -/
def AgentPhase.next : AgentPhase → ChangeEvent
  | .idle => .call
  | .called _ => .check
  | .waiting _ _ => .select false
  | .selected _ _ _ => .reread
  | .woken _ _ _ => .list true
  | .listed _ _ _ _ _ => .respond

/-! ## Changes that are reported -/

/-- An answer says that something changed, counts the change `n`, and lists the files as they were read
after it. -/
def Reported (responses : List Response) (n : ℕ) : Prop :=
  ∃ r ∈ responses, r.changed = true ∧ n ≤ r.seq ∧ n ≤ r.loadedAt

theorem Reported.cons {responses : List Response} {n : ℕ} (h : Reported responses n) (r : Response) :
    Reported (r :: responses) n := by
  obtain ⟨r', hr', hrest⟩ := h
  exact ⟨r', List.mem_cons_of_mem r hr', hrest⟩

/-- The answers after the number `since` miss nothing: one that says that nothing changed counts only
changes that were reported before, and when a call is answered all changes before the call are reported. -/
def Complete (since : ℕ) : List Response → Prop
  | [] => True
  | r :: earlier =>
    (r.changed = false → ∀ n, since < n → n ≤ r.seq → Reported earlier n) ∧
      (∀ n, since < n → n ≤ r.begunAt → Reported (r :: earlier) n) ∧ Complete since earlier

namespace ChangeState

/-- The agent has not called yet, and passes a number that was reached. -/
def Fresh (s : ChangeState) : Prop := s.agent = .idle ∧ s.responses = [] ∧ s.sinceSeq ≤ s.changeSeq

/-- The number does not overflow, and a wait that has timed out reads it again before its channel is
closed. -/
def Safe (s : ChangeState) : ChangeEvent → Prop
  | .notifyChange => s.changeSeq + 1 < 2 ^ 64
  | .reread =>
    match s.agent with
    | .selected _ channel true => channel = s.changed
    | _ => True
  | _ => True

/-- What the agent knows in the middle of a call. -/
def PhaseOk (s : ChangeState) : Prop :=
  match s.agent with
  | .idle => True
  | .called begunAt => begunAt ≤ s.changeSeq
  | .waiting begunAt channel | .selected begunAt channel _ =>
    begunAt ≤ s.changeSeq ∧ channel ≤ s.changed ∧ s.changeSeq ≤ s.sinceSeq + (s.changed - channel)
  | .woken begunAt seq changed =>
    begunAt ≤ seq ∧ seq ≤ s.changeSeq ∧ (changed = false → seq ≤ s.sinceSeq)
  | .listed begunAt seq changed _ loadedAt =>
    begunAt ≤ seq ∧ seq ≤ s.changeSeq ∧ (changed = false → seq ≤ s.sinceSeq) ∧ seq ≤ loadedAt

/-- Whatever the agent passes with the next call was reported to it. -/
structure Tracks (since : ℕ) (s : ChangeState) : Prop where
  le : s.sinceSeq ≤ s.changeSeq
  reported : ∀ n, since < n → n ≤ s.sinceSeq → Reported s.responses n
  complete : Complete since s.responses
  phase : s.PhaseOk

variable {s t : ChangeState} {since : ℕ} {e : ChangeEvent}

/-- A step of the agent inside a call changes only where it is. -/
theorem Tracks.of_agent (h : Tracks since s) (agent : AgentPhase) (ctxDone : Bool)
    (hphase : PhaseOk { s with agent, ctxDone }) : Tracks since { s with agent, ctxDone } :=
  ⟨h.le, h.reported, h.complete, hphase⟩

theorem Tracks.notifyChange (h : Tracks since s) (hsafe : s.changeSeq + 1 < 2 ^ 64) :
    Tracks since s.notifyChange := by
  have hseq : s.notifyChange.changeSeq = s.changeSeq + 1 := Nat.mod_eq_of_lt hsafe
  have hle := h.le
  refine ⟨?_, h.reported, h.complete, ?_⟩
  · show s.sinceSeq ≤ s.notifyChange.changeSeq
    omega
  · have hphase := h.phase
    unfold PhaseOk at hphase ⊢
    rw [hseq]
    show match s.agent with
      | .idle => True
      | .called begunAt => begunAt ≤ s.changeSeq + 1
      | .waiting begunAt channel | .selected begunAt channel _ =>
        begunAt ≤ s.changeSeq + 1 ∧ channel ≤ s.changed + 1 ∧
          s.changeSeq + 1 ≤ s.sinceSeq + (s.changed + 1 - channel)
      | .woken begunAt seq changed =>
        begunAt ≤ seq ∧ seq ≤ s.changeSeq + 1 ∧ (changed = false → seq ≤ s.sinceSeq)
      | .listed begunAt seq changed _ loadedAt =>
        begunAt ≤ seq ∧ seq ≤ s.changeSeq + 1 ∧ (changed = false → seq ≤ s.sinceSeq) ∧ seq ≤ loadedAt
    -- what the agent has read stays as old as it was
    cases hagent : s.agent with
    | idle => trivial
    | called begunAt =>
      simp only [hagent] at hphase
      show begunAt ≤ s.changeSeq + 1
      omega
    | waiting | selected =>
      simp only [hagent] at hphase
      obtain ⟨hbegun, hchannel, hclosed⟩ := hphase
      exact ⟨by omega, by omega, by omega⟩
    | woken begunAt seq changed =>
      simp only [hagent] at hphase
      obtain ⟨hbegun, hseq, hfalse⟩ := hphase
      exact ⟨hbegun, by omega, hfalse⟩
    | listed begunAt seq changed files loadedAt =>
      simp only [hagent] at hphase
      obtain ⟨hbegun, hseq, hfalse, hloaded⟩ := hphase
      exact ⟨hbegun, by omega, hfalse, hloaded⟩

/-- An answer covers the changes that it counts. -/
theorem Tracks.respond (h : Tracks since s) {begunAt seq loadedAt : ℕ} {changed : Bool}
    {files : List FileInReview} (hagent : s.agent = .listed begunAt seq changed files loadedAt) :
    Tracks since { s with
      agent := .idle
      sinceSeq := seq
      responses := s.response begunAt seq changed files loadedAt :: s.responses } := by
  have hphase := h.phase
  unfold PhaseOk at hphase
  simp only [hagent] at hphase
  obtain ⟨hbegun, hseq, hfalse, hloaded⟩ := hphase
  -- a change that is counted was reported before, or is reported now
  have hbefore : changed = false → ∀ n, since < n → n ≤ seq → Reported s.responses n := by
    intro hchanged n hn hle
    have hsince := hfalse hchanged
    exact h.reported n hn (by omega)
  have hnow : ∀ n, since < n → n ≤ seq →
      Reported (s.response begunAt seq changed files loadedAt :: s.responses) n := by
    intro n hn hle
    cases changed with
    | false => exact (hbefore rfl n hn hle).cons _
    | true =>
      refine ⟨_, List.mem_cons_self, rfl, hle, ?_⟩
      show n ≤ loadedAt
      omega
  refine ⟨hseq, hnow, ⟨hbefore, fun n hn hle => hnow n hn ?_, h.complete⟩, trivial⟩
  have hle' : n ≤ begunAt := hle
  omega

theorem Tracks.step (h : Tracks since s) (hsafe : s.Safe e) (hstep : s.step e = some t) :
    Tracks since t := by
  have hphase := h.phase
  unfold PhaseOk at hphase
  cases e with
  | write | expire =>
    obtain rfl := Option.some.inj hstep
    exact ⟨h.le, h.reported, h.complete, h.phase⟩
  | notifyChange =>
    obtain rfl := Option.some.inj hstep
    exact h.notifyChange hsafe
  | call =>
    simp only [ChangeState.step] at hstep
    split at hstep
    · obtain rfl := Option.some.inj hstep
      exact h.of_agent _ _ (Nat.le_refl _)
    · cases hstep
  | check =>
    simp only [ChangeState.step] at hstep
    split at hstep
    · rename_i begunAt hagent
      simp only [hagent] at hphase
      obtain rfl := Option.some.inj hstep
      refine h.of_agent _ _ ?_
      unfold ChangeState.check
      by_cases hlt : s.sinceSeq < s.changeSeq
      · rw [if_pos hlt]
        exact ⟨hphase, Nat.le_refl _, fun hfalse => by cases hfalse⟩
      · rw [if_neg hlt]
        refine ⟨hphase, Nat.le_refl _, ?_⟩
        show s.changeSeq ≤ s.sinceSeq + (s.changed - s.changed)
        omega
    · cases hstep
  | select timedOut =>
    simp only [ChangeState.step] at hstep
    split at hstep
    · rename_i begunAt channel hagent
      simp only [hagent] at hphase
      split at hstep
      · obtain rfl := Option.some.inj hstep
        exact h.of_agent _ _ hphase
      · cases hstep
    · cases hstep
  | reread =>
    simp only [ChangeState.step] at hstep
    split at hstep
    · rename_i begunAt channel timedOut hagent
      simp only [hagent] at hphase
      obtain ⟨hbegun, hchannel, hclosed⟩ := hphase
      obtain rfl := Option.some.inj hstep
      refine h.of_agent _ _ ⟨hbegun, Nat.le_refl _, fun hfalse => ?_⟩
      -- the timeout was taken, and the channel is still open
      have htimedOut : timedOut = true := by simpa using hfalse
      have hopen : channel = s.changed := by
        simp only [Safe, hagent, htimedOut] at hsafe
        exact hsafe
      show s.changeSeq ≤ s.sinceSeq
      omega
    · cases hstep
  | list found =>
    simp only [ChangeState.step] at hstep
    split at hstep
    · rename_i begunAt seq changed hagent
      simp only [hagent] at hphase
      obtain ⟨hbegun, hseq, hfalse⟩ := hphase
      obtain rfl := Option.some.inj hstep
      refine h.of_agent _ _ ?_
      cases found with
      | false => exact trivial
      | true => exact ⟨hbegun, hseq, hfalse, hseq⟩
    · cases hstep
  | respond =>
    simp only [ChangeState.step] at hstep
    split at hstep
    · rename_i begunAt seq changed files loadedAt hagent
      obtain rfl := Option.some.inj hstep
      exact h.respond hagent
    · cases hstep

/-- An agent that waits on an open channel knows all changes. -/
theorem Tracks.not_blocked (h : Tracks since s) {n : ℕ} (hn : since < n) (hle : n ≤ s.changeSeq)
    (hreported : ¬ Reported s.responses n) : s.step s.agent.next ≠ none := by
  have hphase := h.phase
  unfold PhaseOk at hphase
  cases hagent : s.agent with
  | waiting begunAt channel =>
    simp only [hagent] at hphase
    obtain ⟨hbegun, hchannel, hclosed⟩ := hphase
    have hready : channel < s.changed := by
      by_contra hopen
      exact hreported (h.reported n hn (by omega))
    simp [AgentPhase.next, ChangeState.step, ready, hagent, hready]
  | _ => simp [AgentPhase.next, ChangeState.step, hagent]

/-- In a run in which no wait that has timed out reads the number after a change, the answers miss nothing,
and the agent is not blocked while a change is not reported. -/
theorem run_complete (s₀ : ChangeState) (hfresh : s₀.Fresh) (events : List ChangeEvent)
    (t : ChangeState) (hsafe : Along ChangeState.step Safe s₀ events)
    (hrun : run ChangeState.step s₀ events = some t) :
    Complete s₀.sinceSeq t.responses ∧
      ∀ n, s₀.sinceSeq < n → n ≤ t.changeSeq → ¬ Reported t.responses n →
        t.step t.agent.next ≠ none := by
  obtain ⟨hidle, hnone, hle⟩ := hfresh
  have hstart : Tracks s₀.sinceSeq s₀ := by
    refine ⟨hle, fun n hn hle' => ?_, ?_, ?_⟩
    · omega
    · rw [hnone]
      exact trivial
    · unfold PhaseOk
      rw [hidle]
      exact trivial
  have htracks : Tracks s₀.sinceSeq t :=
    run_invariant_along (fun _ _ _ h hs hstep => h.step hs hstep) hstart hsafe hrun
  exact ⟨htracks.complete, fun n hn hle' hnot => htracks.not_blocked hn hle' hnot⟩

instance (s : ChangeState) (e : ChangeEvent) : Decidable (s.Safe e) :=
  match e with
  | .notifyChange => inferInstanceAs (Decidable (s.changeSeq + 1 < 2 ^ 64))
  | .reread =>
    match h : s.agent with
    | .selected _ channel true =>
      decidable_of_iff (channel = s.changed) (by simp only [Safe, h])
    | .selected _ _ false | .idle | .called _ | .waiting _ _ | .woken _ _ _ | .listed _ _ _ _ _ =>
      .isTrue (by simp [Safe, h])
  | .write _ | .call | .check | .expire | .select _ | .list _ | .respond => .isTrue trivial

/-- A change wakes the agent, and the next call times out. -/
theorem run_complete_woken :
    ∃ t : ChangeState,
      run ChangeState.step {} [.call, .check, .notifyChange, .select false, .reread, .list true, .respond,
        .call, .check, .expire, .select true, .reread, .list true, .respond] = some t ∧
      Complete 0 t.responses ∧ t.responses.map Response.changed = [false, true] := by
  refine ⟨_, rfl, ?_, by decide⟩
  exact (run_complete {} ⟨rfl, rfl, Nat.le_refl _⟩ [.call, .check, .notifyChange, .select false, .reread,
    .list true, .respond, .call, .check, .expire, .select true, .reread, .list true, .respond] _ (by decide)
    rfl).1

/-- The timeout is taken although the channel is closed as well: the answer counts the change and says that
nothing changed, and the next call waits. -/
theorem timeout_misses_change :
    ∃ t : ChangeState,
      run ChangeState.step {} [.call, .check, .expire, .notifyChange, .select true, .reread, .list true,
        .respond, .call, .check] = some t ∧
      t.responses.map (fun r => (r.changed, r.seq)) = [(false, 1)] ∧ ¬ Reported t.responses 1 ∧
      ¬ Complete 0 t.responses ∧ t.changeSeq = 1 ∧ t.step t.agent.next = none := by
  have hnot : ∀ responses : List Response, (∀ r ∈ responses, r.changed = false) →
      ¬ Reported responses 1 := by
    rintro responses hfalse ⟨r, hr, hchanged, -⟩
    rw [hfalse r hr] at hchanged
    cases hchanged
  refine ⟨_, rfl, by decide, hnot _ (by decide), ?_, by decide, by decide⟩
  intro hcomplete
  exact hnot [] (by simp) (hcomplete.1 (by decide) 1 (by decide) (by decide))

end ChangeState

end Builderbot.Penpal
