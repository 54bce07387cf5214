import Builderbot.Staged.SessionRuns

/-!
# Terminal statuses

`cancel_session` and `cancel_in_flight_auto_review_for_branch` of `session_commands.rs` against the
runs of a session. The runner, the drains and the automatic review update a row only in the status
they expect. `cancel_session` reads the row and then writes it whatever it has become, and it does so
exactly when the registry does not know the session, which may be because the run has just ended or
because it has yet to register.

The write is right while the row is still active and no agent of the session is at work or about to
be; under that condition terminal statuses are stable.
-/

namespace Builderbot.Staged

/-- Where a `cancel_session` call stands. -/
inductive CancelSessionPc where
  /-- Before `registry.cancel`. -/
  | begun
  /-- A record has been looked up and its token is about to be cancelled. -/
  | found (ref : ℕ)
  /-- The session is not registered; the row is read next. -/
  | missed
  /-- The row was queued or running; it is written next. -/
  | writing
  | done
deriving DecidableEq, Repr

/-- Where a `cancel_in_flight_auto_review_for_branch` call stands that has found a review. -/
inductive AutoReviewPc where
  /-- Before the row of the review's session is read. -/
  | begun
  /-- The row was queued or running; `registry.cancel` comes next. -/
  | lookUp
  | found (ref : ℕ)
  /-- `transition_from_active` comes next. -/
  | transitioning
  | done
deriving DecidableEq, Repr

/-- A call in progress. -/
inductive CancelCommand where
  | session (sessionId : String) (pc : CancelSessionPc)
  | autoReview (sessionId : String) (pc : AutoReviewPc)
deriving DecidableEq, Repr

/-- The sessions and the calls, with a log of the rows that `cancel_session` has written and how many
runs had started then. -/
structure CommandState where
  lifecycle : Lifecycle
  calls : List CancelCommand := []
  cancelWrites : List (String × ℕ) := []

/-- The steps of the system. -/
inductive CommandStep where
  | session (l : LifecycleStep)
  | cancelSession (sessionId : String)
  | cancelAutoReview (sessionId : String)
  | advance (c : ℕ) (stored : Bool)
deriving DecidableEq, Repr

namespace CommandState

/-- No call has been made. -/
def init (rows : SessionTable) : CommandState := { lifecycle := .init rows }

variable (s : CommandState) (c : ℕ) (id : String)

/-- The call at `c` moves on. -/
def goto (call : CancelCommand) : CommandState := { s with calls := s.calls.set c call }

/-- A cancel call cancels the token of the record it has looked up. -/
def signal (ref : ℕ) : CommandState :=
  { s with
    lifecycle :=
      { s.lifecycle with registry := s.lifecycle.registry.applyCancellation ref .interrupted } }

/-- A call writes the session table. -/
def setRows (rows : SessionTable) : CommandState := { s with lifecycle := { s.lifecycle with rows } }

/-- What both calls write. -/
def interrupted : Session := ⟨.cancelled, some .interrupted⟩

/-- The write of `cancel_session`, if there is a row. -/
def writeCancelled : CommandState :=
  { s.setRows (s.lifecycle.rows.updateSessionStatus id interrupted) with
    cancelWrites :=
      if (s.lifecycle.rows id).isSome then s.cancelWrites ++ [(id, s.lifecycle.runs.length)]
      else s.cancelWrites }

/-- `get_session` answers with a queued or running row. -/
def readsActive (stored : Bool) : Bool :=
  stored && (s.lifecycle.rows id).any fun row => row.status = .running || row.status = .queued

/-- The next step of a `cancel_session` call. -/
def advanceSession (stored : Bool) : CancelSessionPc → Option CommandState
  | .begun =>
    match s.lifecycle.registry.running.lookup id with
    | some ref => some (s.goto c (.session id (.found ref)))
    | none => some (s.goto c (.session id .missed))
  | .found ref => some ((s.signal ref).goto c (.session id .done))
  | .missed => some (s.goto c (.session id (if s.readsActive id stored then .writing else .done)))
  | .writing =>
    some ((if stored then s.writeCancelled id else s).goto c (.session id .done))
  | .done => none

/-- The next step of a `cancel_in_flight_auto_review_for_branch` call. -/
def advanceAutoReview (stored : Bool) : AutoReviewPc → Option CommandState
  | .begun => some (s.goto c (.autoReview id (if s.readsActive id stored then .lookUp else .done)))
  | .lookUp =>
    match s.lifecycle.registry.running.lookup id with
    | some ref => some (s.goto c (.autoReview id (.found ref)))
    | none => some (s.goto c (.autoReview id .transitioning))
  | .found ref => some ((s.signal ref).goto c (.autoReview id .transitioning))
  | .transitioning =>
    let rows := (s.lifecycle.rows.transitionFromActive id interrupted).1
    some ((if stored then s.setRows rows else s).goto c (.autoReview id .done))
  | .done => none

/-- One step, `none` when it is not possible. -/
def step : CommandStep → Option CommandState
  | .session l => (s.lifecycle.step l).map fun lifecycle => { s with lifecycle }
  | .cancelSession id => some { s with calls := s.calls ++ [.session id .begun] }
  | .cancelAutoReview id => some { s with calls := s.calls ++ [.autoReview id .begun] }
  | .advance c stored =>
    match s.calls[c]? with
    | some (.session id pc) => s.advanceSession c id stored pc
    | some (.autoReview id pc) => s.advanceAutoReview c id stored pc
    | none => none

/-- A run that had started when `cancel_session` set its row to cancelled has no agent at work whose
token is not cancelled. -/
def NoAgentUnderCancelledRow : Prop :=
  ∀ w ∈ s.cancelWrites, ∀ (i : ℕ) (run : SessionRun), i < w.2 → s.lifecycle.runs[i]? = some run →
    run.sessionId = w.1 → run.phase = .agent → s.lifecycle.tokenCancelled run = true

/-! ## The condition -/

/-- The row is not terminal, unless it has what is about to be written, and no run of the session is
starting or at work with a token that is not cancelled. -/
def CleanWrite : Prop :=
  (∀ row ∈ s.lifecycle.rows id, row.status.isTerminal = false ∨ row = interrupted) ∧
    ∀ run ∈ s.lifecycle.runs, run.sessionId = id →
      run.phase ≠ .starting ∧ (run.phase = .agent → s.lifecycle.tokenCancelled run = true)

/-- The condition on a call: it is one on the write of `cancel_session`. -/
def CleanCall : CancelCommand → Prop
  | .session id .writing => s.CleanWrite id
  | _ => True

/-- The condition on a step. -/
def CleanStep : CommandStep → Prop
  | .advance c true => ∀ call ∈ s.calls[c]?, s.CleanCall call
  | _ => True

instance : Decidable (s.CleanWrite id) := inferInstanceAs (Decidable (_ ∧ _))

instance : ∀ call : CancelCommand, Decidable (s.CleanCall call)
  | .session id .writing => inferInstanceAs (Decidable (s.CleanWrite id))
  | .session _ .begun | .session _ (.found _) | .session _ .missed | .session _ .done
  | .autoReview _ _ => .isTrue trivial

instance : ∀ l : CommandStep, Decidable (s.CleanStep l)
  | .advance c true => inferInstanceAs (Decidable (∀ call ∈ s.calls[c]?, s.CleanCall call))
  | .session _ | .cancelSession _ | .cancelAutoReview _ | .advance _ false => .isTrue trivial

end CommandState

/-! ## What the runs do -/

namespace Lifecycle

variable {s t : Lifecycle} {l : LifecycleStep} {id : String} {i n : ℕ} {run : SessionRun}
  {f : SessionRun → SessionRun}

/-- Among the steps of the runs only a resume touches a terminal row. -/
theorem Effect.rows_of_isTerminal (he : Effect s l t) (hl : l ≠ .resume id) {row : Session}
    (hrow : s.rows id = some row) (hterminal : row.status.isTerminal = true) :
    t.rows id = some row := by
  cases he with
  | queue hnone =>
    refine (Function.update_of_ne ?_ _ _).trans hrow
    rintro rfl
    exact absurd (hnone.symm.trans hrow).symm (Option.some_ne_none row)
  | start _ _ hresume =>
    refine (Function.update_of_ne ?_ _ _).trans hrow
    rintro rfl
    rcases hresume with rfl | ⟨-, hactive⟩
    · exact hl rfl
    · rw [hactive row hrow] at hterminal
      cases hterminal
  | @transition _ _ outcome stored _ _ =>
    cases stored with
    | false => exact hrow
    | true =>
      refine s.rows.updateWhere_of_isTerminal _ (fun status h => ?_) outcome hrow hterminal
      rw [of_decide_eq_true h]
      rfl
  | idle _ | startFails _ _ | register _ _ | move _ _ _ _ | deregister _ _ => exact hrow

/-- None of the first `n` runs is one of the session that is starting or at work with a token that is
not cancelled. -/
def Quiet (s : Lifecycle) (id : String) (n : ℕ) : Prop :=
  ∀ (i : ℕ) (run : SessionRun), i < n → s.runs[i]? = some run → run.sessionId = id →
    run.phase ≠ .starting ∧ (run.phase = .agent → s.tokenCancelled run = true)

theorem tokenCancelled_mono
    (hcancelled : ∀ ref, s.registry.isCancelled ref = true → t.registry.isCancelled ref = true)
    (h : s.tokenCancelled run = true) : t.tokenCancelled run = true := by
  unfold tokenCancelled at h ⊢
  cases htoken : run.token with
  | none => simp [htoken] at h
  | some ref =>
    rw [htoken] at h
    exact hcancelled ref h

theorem Quiet.frame (h : s.Quiet id n) (hruns : t.runs = s.runs)
    (hcancelled : ∀ ref, s.registry.isCancelled ref = true → t.registry.isCancelled ref = true) :
    t.Quiet id n := by
  intro j r hj hget hid
  rw [hruns] at hget
  obtain ⟨hphase, hagent⟩ := h j r hj hget hid
  exact ⟨hphase, fun heq => tokenCancelled_mono hcancelled (hagent heq)⟩

theorem Quiet.modify (h : s.Quiet id n) (hi : s.runs[i]? = some run)
    (hruns : t.runs = s.runs.modify i f)
    (hcancelled : ∀ ref, s.registry.isCancelled ref = true → t.registry.isCancelled ref = true)
    (hself : i < n → (f run).sessionId = id → (f run).phase ≠ .starting ∧ (f run).phase ≠ .agent) :
    t.Quiet id n := by
  intro j r hj hget hid
  rw [hruns] at hget
  rcases of_getElem?_modify hi hget with ⟨rfl, rfl⟩ | ⟨-, hget⟩
  · obtain ⟨hstarting, hagent⟩ := hself hj hid
    exact ⟨hstarting, fun heq => absurd heq hagent⟩
  · obtain ⟨hphase, hagent⟩ := h j r hj hget hid
    exact ⟨hphase, fun heq => tokenCancelled_mono hcancelled (hagent heq)⟩

/-- No run comes back to an earlier phase. -/
theorem Quiet.effect (h : s.Quiet id n) (hn : n ≤ s.runs.length) (he : Effect s l t) :
    t.Quiet id n := by
  cases he with
  | idle _ | queue _ => exact h
  | start _ _ _ =>
    intro j r hj hget hid
    rcases of_getElem?_concat hget with hget | ⟨rfl, -⟩
    · exact h j r hj hget hid
    · omega
  | startFails hrun _ | deregister hrun _ | transition hrun _ =>
    exact h.modify hrun rfl (fun _ h => h) fun _ _ => ⟨nofun, nofun⟩
  | @move _ _ _ phase _ hrun _ hnew =>
    have hstarting : phase ≠ .starting := by
      rintro rfl
      exact Bool.noConfusion hnew.1
    exact h.modify hrun rfl (fun _ h => h) fun _ _ => ⟨hstarting, hnew.2⟩
  | register hrun hphase =>
    refine h.modify hrun rfl (fun _ => s.registry.isCancelled_register _) fun hi hid => ?_
    exact absurd hphase (h _ _ hi hrun hid).1

theorem Effect.length_le (he : Effect s l t) : s.runs.length ≤ t.runs.length := by
  cases he with
  | idle _ | queue _ => exact le_rfl
  | start _ _ _ =>
    show _ ≤ (s.runs ++ [_]).length
    rw [List.length_append]
    omega
  | startFails _ _ | register _ _ | move _ _ _ _ | deregister _ _ | transition _ _ =>
    exact (List.length_modify ..).ge

end Lifecycle

/-! ## What the calls do -/

namespace CommandState

variable {s t : CommandState}

/-- Everything but the write of `cancel_session`: the runs stay, tokens are only ever cancelled, and
terminal rows stay. -/
structure Harmless (s t : CommandState) : Prop where
  runs : t.lifecycle.runs = s.lifecycle.runs
  cancelled : ∀ ref, s.lifecycle.registry.isCancelled ref = true →
    t.lifecycle.registry.isCancelled ref = true
  rows : ∀ id row, s.lifecycle.rows id = some row → row.status.isTerminal = true →
    t.lifecycle.rows id = some row
  cancelWrites : t.cancelWrites = s.cancelWrites

theorem harmless_goto (s : CommandState) (c : ℕ) (call : CancelCommand) : Harmless s (s.goto c call) :=
  ⟨rfl, fun _ h => h, fun _ _ h _ => h, rfl⟩

theorem harmless_signal (s : CommandState) (ref c : ℕ) (call : CancelCommand) :
    Harmless s ((s.signal ref).goto c call) :=
  ⟨rfl, fun _ h => s.lifecycle.registry.isCancelled_applyCancellation h ref _, fun _ _ h _ => h, rfl⟩

/-- What a step of a call does. -/
theorem advance_cases {c : ℕ} {stored : Bool} (h : s.step (.advance c stored) = some t) :
    Harmless s t ∨ ∃ id, s.calls[c]? = some (.session id .writing) ∧ stored = true ∧
      t = (s.writeCancelled id).goto c (.session id .done) := by
  simp only [step] at h
  split at h
  · rename_i id pc hc
    cases pc with
    | begun =>
      simp only [advanceSession] at h
      split at h <;> obtain rfl := Option.some.inj h <;> exact .inl (harmless_goto ..)
    | found ref =>
      obtain rfl := Option.some.inj h
      exact .inl (harmless_signal ..)
    | missed =>
      obtain rfl := Option.some.inj h
      exact .inl (harmless_goto ..)
    | writing =>
      obtain rfl := Option.some.inj h
      cases stored with
      | false => exact .inl (harmless_goto ..)
      | true => exact .inr ⟨id, hc, rfl, rfl⟩
    | done => cases h
  · rename_i id pc hc
    cases pc with
    | begun =>
      obtain rfl := Option.some.inj h
      exact .inl (harmless_goto ..)
    | lookUp =>
      simp only [advanceAutoReview] at h
      split at h <;> obtain rfl := Option.some.inj h <;> exact .inl (harmless_goto ..)
    | found ref =>
      obtain rfl := Option.some.inj h
      exact .inl (harmless_signal ..)
    | transitioning =>
      obtain rfl := Option.some.inj h
      cases stored with
      | false => exact .inl (harmless_goto ..)
      -- `updateWhere` passes over rows that have ended
      | true =>
        refine .inl ⟨rfl, fun _ h => h, fun k row hrow hterminal => ?_, rfl⟩
        refine s.lifecycle.rows.updateWhere_of_isTerminal id (fun status h => ?_) _ hrow hterminal
        simp only [Bool.or_eq_true, decide_eq_true_eq] at h
        rcases h with rfl | rfl <;> rfl
    | done => cases h
  · cases h

/-- A clean write replaces no terminal row by another one. -/
theorem rows_writeCancelled {id k : String} (hclean : s.CleanWrite id) {row : Session}
    (hrow : s.lifecycle.rows k = some row) (hterminal : row.status.isTerminal = true) :
    (s.writeCancelled id).lifecycle.rows k = some row := by
  show (s.lifecycle.rows.updateWhere id _ interrupted).1 k = some row
  by_cases hk : k = id
  · subst hk
    rcases s.lifecycle.rows.updateWhere_cases k (fun _ => true) interrupted with
      ⟨heq, -⟩ | ⟨-, -, -, heq⟩
    · rw [heq]
      exact hrow
    · rcases hclean.1 row hrow with hactive | rfl
      · rw [hactive] at hterminal
        cases hterminal
      · rw [heq]
        exact Function.update_self ..
  · rw [SessionTable.updateWhere_of_ne _ _ _ _ hk]
    exact hrow

/-- One clean step leaves a terminal row as it is, unless it is a resume. -/
theorem rows_of_step {id : String} {row : Session} (s : CommandState) (l : CommandStep)
    (t : CommandState)
    (h : s.lifecycle.rows id = some row ∧ row.status.isTerminal = true)
    (hclean : s.CleanStep l ∧ l ≠ .session (.resume id)) (hstep : s.step l = some t) :
    t.lifecycle.rows id = some row ∧ row.status.isTerminal = true := by
  obtain ⟨hrow, hterminal⟩ := h
  refine ⟨?_, hterminal⟩
  cases l with
  | session l =>
    obtain ⟨u, hu, rfl⟩ := Option.map_eq_some_iff.mp hstep
    refine (Lifecycle.effect_of_step hu).rows_of_isTerminal (fun hl => ?_) hrow hterminal
    exact hclean.2 (congrArg CommandStep.session hl)
  | cancelSession id' | cancelAutoReview id' =>
    obtain rfl := Option.some.inj hstep
    exact hrow
  | advance c stored =>
    rcases advance_cases hstep with hharmless | ⟨id', hc, rfl, rfl⟩
    · exact hharmless.rows id row hrow hterminal
    · exact rows_writeCancelled (hclean.1 _ hc) hrow hterminal

/-- The sessions whose rows were cancelled have been quiet since. -/
def QuietWrites (s : CommandState) : Prop :=
  ∀ w ∈ s.cancelWrites, s.lifecycle.Quiet w.1 w.2 ∧ w.2 ≤ s.lifecycle.runs.length

theorem QuietWrites.harmless (h : s.QuietWrites) (hst : Harmless s t) : t.QuietWrites := by
  intro w hw
  rw [hst.cancelWrites] at hw
  obtain ⟨hquiet, hle⟩ := h w hw
  exact ⟨hquiet.frame hst.runs hst.cancelled, hst.runs ▸ hle⟩

theorem QuietWrites.writeCancelled (h : s.QuietWrites) {id : String} (hclean : s.CleanWrite id) :
    (s.writeCancelled id).QuietWrites := by
  intro w hw
  have hw : w ∈ s.cancelWrites ∨ w = (id, s.lifecycle.runs.length) := by
    unfold CommandState.writeCancelled at hw
    dsimp only at hw
    split at hw
    · simpa using hw
    · exact .inl hw
  rcases hw with hw | rfl
  · exact h w hw
  · exact ⟨fun i run _ hrun hid => hclean.2 run (List.mem_of_getElem? hrun) hid, le_rfl⟩

theorem QuietWrites.step (s : CommandState) (l : CommandStep) (t : CommandState) (h : s.QuietWrites)
    (hclean : s.CleanStep l) (hstep : s.step l = some t) : t.QuietWrites := by
  cases l with
  | session l =>
    obtain ⟨u, hu, rfl⟩ := Option.map_eq_some_iff.mp hstep
    have he := Lifecycle.effect_of_step hu
    intro w hw
    obtain ⟨hquiet, hle⟩ := h w hw
    exact ⟨hquiet.effect hle he, hle.trans he.length_le⟩
  | cancelSession id | cancelAutoReview id =>
    obtain rfl := Option.some.inj hstep
    exact h
  | advance c stored =>
    rcases advance_cases hstep with hharmless | ⟨id, hc, rfl, rfl⟩
    · exact h.harmless hharmless
    · exact (h.writeCancelled (hclean _ hc)).harmless (harmless_goto ..)

theorem QuietWrites.noAgentUnderCancelledRow (h : s.QuietWrites) : s.NoAgentUnderCancelledRow :=
  fun w hw i run hi hrun hid => ((h w hw).1 i run hi hrun hid).2

/-- In every interleaving in which `cancel_session` writes only rows that are still active, of
sessions with no agent at work or about to be, a terminal row keeps its status and its reason until
it is resumed, and no agent works on under a row that `cancel_session` has cancelled. -/
theorem terminal_statuses_stable (rows : SessionTable) (ls ls' : List CommandStep)
    (s t : CommandState) (hclean : Along step CleanStep (init rows) ls)
    (hs : run step (init rows) ls = some s) (hclean' : Along step CleanStep s ls')
    (ht : run step s ls' = some t) :
    (∀ id row, s.lifecycle.rows id = some row → row.status.isTerminal = true →
      (∀ l ∈ ls', l ≠ .session (.resume id)) → t.lifecycle.rows id = some row) ∧
    t.NoAgentUnderCancelledRow := by
  constructor
  · intro id row hrow hterminal hresume
    exact (run_invariant_along rows_of_step ⟨hrow, hterminal⟩ (hclean'.and_forall hresume) ht).1
  · have hinit : (init rows).QuietWrites := fun w hw => absurd hw List.not_mem_nil
    have hquiet := run_invariant_along QuietWrites.step hinit hclean hs
    exact (run_invariant_along QuietWrites.step hquiet hclean' ht).noAgentUnderCancelledRow

/-- One session, which is queued. -/
def oneQueued : SessionTable := fun id => if id = "s" then some ⟨.queued, none⟩ else none

/-- The session is cancelled while it is queued, and a drain comes too late. -/
def cancelledInQueue : List CommandStep :=
  [.cancelSession "s", .advance 0 true, .advance 0 true, .advance 0 true]

theorem cancelledInQueue_stable :
    Along step CleanStep (init oneQueued) cancelledInQueue ∧
      ∃ s t, run step (init oneQueued) cancelledInQueue = some s ∧
        run step s [.session (.claim "s")] = some t ∧
        t.lifecycle.rows "s" = some interrupted ∧ t.NoAgentUnderCancelledRow := by
  have hclean : Along step CleanStep (init oneQueued) cancelledInQueue := by decide
  have hrun : (run step (init oneQueued) cancelledInQueue).map (·.lifecycle.rows "s")
      = some (some interrupted) := by decide
  obtain ⟨s, hs, hrow⟩ := Option.map_eq_some_iff.mp hrun
  obtain ⟨t, ht⟩ : ∃ t, run step s [.session (.claim "s")] = some t := by
    simp only [run, step, Lifecycle.step, SessionTable.transitionQueuedToRunning,
      SessionTable.updateWhere, hrow]
    exact ⟨s, rfl⟩
  have hclean' : Along step CleanStep s [.session (.claim "s")] := ⟨trivial, fun _ _ => trivial⟩
  obtain ⟨hrows, hagent⟩ := terminal_statuses_stable oneQueued cancelledInQueue
    [.session (.claim "s")] s t hclean hs hclean' ht
  refine ⟨hclean, s, t, hs, ht, hrows "s" interrupted hrow rfl fun l hl => ?_, hagent⟩
  rw [List.mem_singleton.mp hl]
  intro hresume
  cases hresume

/-- A call finds the session out of the registry and the row running, and then the run completes. -/
def completedMeanwhile : List CommandStep :=
  [.session (.claim "s"), .session (.register 0), .session (.agentEnds 0 true), .session (.decide 0),
    .session (.deregister 0), .cancelSession "s", .advance 0 true, .advance 0 true,
    .session (.transition 0 true)]

/-- A call cancels the row of a session in its startup, and then the session registers. -/
def cancelledInStartup : List CommandStep :=
  [.session (.claim "s"), .cancelSession "s", .advance 0 true, .advance 0 true, .advance 0 true,
    .session (.register 0)]

/-- The first call overwrites a completed row; the agent of the second session works on under a
cancelled row. -/
theorem cancel_session_overwrites :
    (∃ s t, run step (init oneQueued) completedMeanwhile = some s ∧
      s.lifecycle.rows "s" = some ⟨.completed, some .turnComplete⟩ ∧
      run step s [.advance 0 true] = some t ∧ t.lifecycle.rows "s" = some interrupted) ∧
    ∃ s, run step (init oneQueued) cancelledInStartup = some s ∧
      s.lifecycle.rows "s" = some interrupted ∧
      s.lifecycle.runs[0]? = some ⟨"s", false, some 0, .agent⟩ ∧
      s.lifecycle.registry.isCancelled 0 = false ∧ ¬s.NoAgentUnderCancelledRow := by
  constructor
  · have hrun : (run step (init oneQueued) completedMeanwhile).bind (fun s =>
        (run step s [.advance 0 true]).map fun t => (s.lifecycle.rows "s", t.lifecycle.rows "s"))
        = some (some ⟨.completed, some .turnComplete⟩, some interrupted) := by decide
    obtain ⟨s, hs, hrun⟩ := Option.bind_eq_some_iff.mp hrun
    obtain ⟨t, ht, heq⟩ := Option.map_eq_some_iff.mp hrun
    obtain ⟨hcompleted, hcancelled⟩ := Prod.mk.inj heq
    exact ⟨s, t, hs, hcompleted, ht, hcancelled⟩
  · have hrun : (run step (init oneQueued) cancelledInStartup).map (fun s =>
        (s.lifecycle.rows "s", s.lifecycle.runs[0]?, s.lifecycle.registry.isCancelled 0,
          s.cancelWrites))
        = some (some interrupted, some ⟨"s", false, some 0, .agent⟩, false, [("s", 1)]) := by decide
    obtain ⟨s, hs, heq⟩ := Option.map_eq_some_iff.mp hrun
    simp only [Prod.mk.injEq] at heq
    obtain ⟨hrow, hagent, hcancelled, hwrites⟩ := heq
    refine ⟨s, hs, hrow, hagent, hcancelled, fun hno => ?_⟩
    have hmem : ("s", 1) ∈ s.cancelWrites := by
      rw [hwrites]
      exact List.mem_singleton_self _
    have htrue : s.lifecycle.registry.isCancelled 0 = true :=
      hno _ hmem 0 _ Nat.one_pos hagent rfl rfl
    rw [hcancelled] at htrue
    cases htrue

end CommandState

end Builderbot.Staged
