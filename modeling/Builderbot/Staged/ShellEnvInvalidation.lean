import Builderbot.Staged.ShellEnv

/-!
# Invalidating the shell environment

`invalidate` and `invalidate_all` only remove entries of the map, while the captures behind them go on. A snapshot is
from before an invalidation if its capture started at a smaller generation.

* `run_effective` says when an invalidation takes effect: no capture from before it succeeds, and none fails or is
  cancelled while a later capture is in flight.
* `run_ineffective` shows both.
-/

namespace Builderbot.Staged.ShellEnvCache

variable {s t : ShellEnvCache} {c : ℕ} {workingDir : PathBuf}

/-- Invalidations take effect. -/
structure Effective (s : ShellEnvCache) : Prop where
  /-- A call that began after an invalidation has returned a snapshot whose capture started after it. -/
  fresh : ∀ call ∈ s.calls, ∀ env, call.phase = .returned (some (.ok env)) →
    s.Serves env.capture call.workingDir call.generation
  /-- At most one capture of a directory that started between two invalidations runs. -/
  one : ∀ (c c' : ℕ) (capture capture' : Capture), s.captures[c]? = some capture → s.captures[c']? = some capture' →
    capture.phase = .running → capture'.phase = .running → capture.workingDir = capture'.workingDir →
    capture.generation = capture'.generation → c = c'
  /-- But for an invalidation, an `InFlight` entry is only replaced or removed at the end of its own capture. -/
  kept : ∀ event t workingDir c, s.Timely event → ¬ event.Invalidates → s.step event = some t →
    s.inner.lookup workingDir = some (.inFlight c) →
    event = .capture c ∨ t.inner.lookup workingDir = some (.inFlight c)

/-- Looking into the map leaves the entries of captures. -/
theorem look_kept {i : ℕ} {call : GetCall} (hentry : s.inner.lookup workingDir = some (.inFlight c)) :
    (s.look i call).inner.lookup workingDir = some (.inFlight c) := by
  have hstart (hnone : s.inner.lookup call.workingDir ≠ some (.inFlight c)) :
      (s.startCapture i call).inner.lookup workingDir = some (.inFlight c) := by
    have hw : workingDir ≠ call.workingDir := by
      rintro rfl
      exact hnone hentry
    exact (AList.lookup_insert_ne hw).trans hentry
  rw [look]
  split
  next env hready =>
    split
    next => exact hentry
    next =>
      apply hstart
      rw [hready]
      exact fun heq => by cases heq
  next => exact hentry
  next hnone =>
    apply hstart
    rw [hnone]
    exact fun heq => by cases heq

theorem callStep_kept {i : ℕ} {call : GetCall} (hstep : s.callStep i call = some t)
    (hentry : s.inner.lookup workingDir = some (.inFlight c)) :
    t.inner.lookup workingDir = some (.inFlight c) := by
  rw [callStep] at hstep
  split at hstep
  next =>
    cases hstep
    exact look_kept hentry
  next =>
    obtain ⟨phase, -, rfl⟩ := Option.map_eq_some_iff.mp hstep
    exact hentry
  next =>
    obtain ⟨capture, -, hfinished⟩ := Option.bind_eq_some_iff.mp hstep
    split at hfinished <;> cases hfinished
    exact hentry
  next => cases hstep

/-- The caller of another capture leaves the entry. -/
theorem Inv.nextInner_kept (h : s.Inv) {c' : ℕ} {capture capture' : Capture} (hcapture : s.captures[c']? = some capture)
    (hnext : capture.next = some capture') (htimely : s.Timely (.capture c')) (hne : c' ≠ c)
    (hentry : s.inner.lookup workingDir = some (.inFlight c)) :
    (capture.nextInner s.inner).lookup workingDir = some (.inFlight c) := by
  obtain ⟨hstores, hevicts⟩ := htimely capture hcapture
  rcases Capture.next_cases hnext with ⟨env, hphase, -⟩ | ⟨hevict, -, -⟩ | ⟨-, hinner, -⟩
  · have hown := h.holds c' capture hcapture (by rw [hphase]; exact trivial) (hstores (by rw [hphase]; exact trivial))
    have hw : workingDir ≠ capture.workingDir := by
      rintro rfl
      rw [hentry] at hown
      cases hown
      exact hne rfl
    rw [Capture.nextInner, hphase]
    exact (AList.lookup_insert_ne hw).trans hentry
  · have hw : workingDir ≠ capture.workingDir := by
      rintro rfl
      exact hne (h.own_entry hcapture hevict (hevicts hevict) c hentry).symm
    rw [Capture.nextInner_of_evicts hevict]
    split
    next => exact (AList.lookup_erase_ne hw).trans hentry
    next => exact hentry
    next => exact hentry
  · rw [hinner]
    exact hentry

theorem Inv.kept (h : s.Inv) {event : ShellEnvEvent} (htimely : s.Timely event) (hevent : ¬ event.Invalidates)
    (hstep : s.step event = some t) (hentry : s.inner.lookup workingDir = some (.inFlight c)) :
    event = .capture c ∨ t.inner.lookup workingDir = some (.inFlight c) := by
  cases event with
  | invalidate dir | invalidateAll => exact absurd trivial hevent
  | get dir blocking | elapse =>
    cases hstep
    exact Or.inr hentry
  | call i =>
    obtain ⟨call, -, hnext⟩ := Option.bind_eq_some_iff.mp hstep
    exact Or.inr (callStep_kept hnext hentry)
  | cancel i =>
    obtain ⟨call, -, hnext⟩ := Option.bind_eq_some_iff.mp hstep
    split at hnext
    next =>
      split at hnext <;> cases hnext
      exact Or.inr hentry
    next => cases hnext
  | captured c' outcome | abort c' =>
    obtain ⟨capture, -, hmap⟩ := Option.bind_eq_some_iff.mp hstep
    obtain ⟨capture', -, rfl⟩ := Option.map_eq_some_iff.mp hmap
    exact Or.inr hentry
  | capture c' =>
    by_cases hc : c' = c
    · exact Or.inl (by rw [hc])
    · obtain ⟨capture, hcapture, hmap⟩ := Option.bind_eq_some_iff.mp hstep
      obtain ⟨capture', hnext, rfl⟩ := Option.map_eq_some_iff.mp hmap
      exact Or.inr (h.nextInner_kept hcapture hnext htimely hc hentry)

/-- In a run of timely steps every invalidation takes effect. -/
theorem run_effective {ttl : ℕ} {events : List ShellEnvEvent} (hrun : run step { ttl } events = some s)
    (htimely : Along step Timely { ttl } events) : s.Effective := by
  have h : s.Inv := run_invariant_along (fun _ _ _ h htimely hstep => Inv.step h htimely hstep) (inv_new ttl) htimely hrun
  have hrunning {capture : Capture} (hphase : capture.phase = .running) : capture.phase.Holds := by
    rw [hphase]
    exact trivial
  exact ⟨h.returned, fun c c' capture capture' hcapture hcapture' hphase hphase' hdir hgeneration =>
      h.unique c c' capture capture' hcapture hcapture' (hrunning hphase) (hrunning hphase') hdir hgeneration,
    fun event t workingDir c htimely hevent hstep hentry => h.kept htimely hevent hstep hentry⟩

instance : (phase : CapturePhase) → Decidable phase.Stores
  | .captured (.ok _) => .isTrue trivial
  | .running | .captured (.error _) | .stored _ | .published _ | .sent _ | .unwinding | .evicted _ | .released _
    | .finished _ => .isFalse id

instance : (phase : CapturePhase) → Decidable phase.Evicts
  | .sent (.error _) | .unwinding => .isTrue trivial
  | .running | .captured _ | .stored _ | .published _ | .sent (.ok _) | .evicted _ | .released _ | .finished _ =>
    .isFalse id

instance (s : ShellEnvCache) (workingDir : PathBuf) : Decidable (s.NoneInFlight workingDir) := by
  unfold NoneInFlight
  split <;> infer_instance

instance (s : ShellEnvCache) : (event : ShellEnvEvent) → Decidable (s.Timely event)
  | .capture c => inferInstanceAs (Decidable (∀ capture ∈ s.captures[c]?,
      (capture.phase.Stores → capture.generation = s.generation capture.workingDir) ∧
        (capture.phase.Evicts →
          capture.generation = s.generation capture.workingDir ∨ s.NoneInFlight capture.workingDir)))
  | .get .. | .invalidate _ | .invalidateAll | .elapse | .call _ | .cancel _ | .captured .. | .abort _ => .isTrue trivial

/-- The snapshot that the call at `i` has returned. -/
def snapshot (s : ShellEnvCache) (i : ℕ) : Option ShellEnv :=
  s.calls[i]?.bind fun call =>
    match call.phase with
    | .returned (some (.ok env)) => some env
    | _ => none

/-- The capture runs. -/
def runs (s : ShellEnvCache) (c : ℕ) : Bool :=
  s.captures[c]?.any fun capture =>
    match capture.phase with
    | .running => true
    | _ => false

theorem snapshot_eq_some {i : ℕ} {env : ShellEnv} (h : s.snapshot i = some env) :
    ∃ call, s.calls[i]? = some call ∧ call.phase = .returned (some (.ok env)) := by
  obtain ⟨call, hcall, hphase⟩ := Option.bind_eq_some_iff.mp h
  refine ⟨call, hcall, ?_⟩
  split at hphase
  next env' hphase' =>
    cases hphase
    exact hphase'
  next => cases hphase

theorem runs_eq_true (h : s.runs c = true) : ∃ capture, s.captures[c]? = some capture ∧ capture.phase = .running := by
  obtain ⟨capture, hcapture, hphase⟩ := (Option.any_eq_true _ _).mp h
  refine ⟨capture, hcapture, ?_⟩
  split at hphase
  next hphase' => exact hphase'
  next => cases hphase

/-- A capture that started before the invalidation succeeds after it, and its snapshot is returned to a call that began
later; and one that is cancelled removes the entry of a later capture, so that a third one runs beside that. -/
theorem run_ineffective :
    (∃ s, run step { ttl := 1 } [.get [] false, .call 0, .invalidate [], .captured 0 (.ok []), .capture 0, .get [] false,
        .call 1] = some s ∧ s.snapshot 1 = some ⟨[], 0, 0⟩ ∧ ¬ s.Effective) ∧
    ∃ s, run step { ttl := 1 } [.get [] false, .call 0, .invalidateAll, .get [] true, .call 1, .abort 0, .capture 0,
        .get [] true, .call 2] = some s ∧ s.runs 1 = true ∧ s.runs 2 = true ∧ ¬ s.Effective := by
  refine ⟨?_, ?_⟩
  · obtain ⟨s, hrun, hs⟩ := exists_run_of_any
      (show (run step { ttl := 1 } [.get [] false, .call 0, .invalidate [], .captured 0 (.ok []), .capture 0,
          .get [] false, .call 1]).any (fun s => decide (s.snapshot 1 = some ⟨[], 0, 0⟩ ∧
            s.calls.map (·.generation) = [0, 1] ∧ s.captures.map (·.generation) = [0])) = true by decide)
    obtain ⟨hsnapshot, hcalls, hcaptures⟩ := of_decide_eq_true hs
    refine ⟨s, hrun, hsnapshot, fun heffective => ?_⟩
    obtain ⟨call, hcall, hphase⟩ := snapshot_eq_some hsnapshot
    obtain ⟨started, hstarted, -, hle⟩ := heffective.fresh call (List.mem_of_getElem? hcall) _ hphase
    -- the capture is from before the invalidation, and the call from after it
    have hgeneration : (s.calls.map (·.generation))[1]? = some call.generation := by
      rw [List.getElem?_map, hcall]
      rfl
    have hgeneration' : (s.captures.map (·.generation))[0]? = some started.generation := by
      rw [List.getElem?_map, hstarted]
      rfl
    rw [hcalls] at hgeneration
    rw [hcaptures] at hgeneration'
    have hone : 1 = call.generation := Option.some.inj hgeneration
    have hzero : 0 = started.generation := Option.some.inj hgeneration'
    omega
  · obtain ⟨s, hrun, hs⟩ := exists_run_of_any
      (show (run step { ttl := 1 } [.get [] false, .call 0, .invalidateAll, .get [] true, .call 1, .abort 0, .capture 0,
          .get [] true, .call 2]).any (fun s => decide (s.runs 1 = true ∧ s.runs 2 = true ∧
            s.captures.map (fun capture => (capture.workingDir, capture.generation)) = [([], 0), ([], 1), ([], 1)])) = true
        by decide)
    obtain ⟨hruns, hruns', hcaptures⟩ := of_decide_eq_true hs
    refine ⟨s, hrun, hruns, hruns', fun heffective => ?_⟩
    obtain ⟨capture, hcapture, hphase⟩ := runs_eq_true hruns
    obtain ⟨capture', hcapture', hphase'⟩ := runs_eq_true hruns'
    have hfields (c : ℕ) (capture : Capture) (hcapture : s.captures[c]? = some capture) :
        ([([], 0), ([], 1), ([], 1)] : List (PathBuf × ℕ))[c]? = some (capture.workingDir, capture.generation) := by
      rw [← hcaptures, List.getElem?_map, hcapture]
      rfl
    have hsame := (hfields 1 capture hcapture).symm.trans (hfields 2 capture' hcapture')
    rw [Option.some.injEq, Prod.mk.injEq] at hsame
    exact absurd (heffective.one 1 2 capture capture' hcapture hcapture' hphase hphase' hsame.1 hsame.2) (by decide)

/-- The capture from before the invalidation is cancelled before a later one starts, whose snapshot the later call
returns. -/
theorem run_effective_cancelled :
    ∃ s, run step { ttl := 1 } [.get [] false, .call 0, .invalidate [], .abort 0, .capture 0, .capture 0, .capture 0,
        .get [] true, .call 1, .captured 1 (.ok []), .capture 1, .capture 1, .capture 1, .capture 1, .call 1] = some s ∧
      s.snapshot 1 = some ⟨[], 0, 1⟩ ∧ s.Effective := by
  obtain ⟨s, hrun, hs⟩ := exists_run_of_any
    (show (run step { ttl := 1 } [.get [] false, .call 0, .invalidate [], .abort 0, .capture 0, .capture 0, .capture 0,
        .get [] true, .call 1, .captured 1 (.ok []), .capture 1, .capture 1, .capture 1, .capture 1, .call 1]).any
      (fun s => decide (s.snapshot 1 = some ⟨[], 0, 1⟩)) = true by decide)
  exact ⟨s, hrun, of_decide_eq_true hs, run_effective hrun (by decide)⟩

end Builderbot.Staged.ShellEnvCache
