import Builderbot.Staged.LaunchInvariant

/-!
# Commit pipelines and resumes

`start_or_queue_commit_pipeline_for_branch` looks for running and queued sessions and then inserts
its row and its commit, without the launch lock that `start_or_queue_branch_session_for_store`
holds from its checks to its insertion. `resume_session` sets its row to running without a look at
the other sessions of the branch. So both can put a session beside a commit session.

`exclusive_sessions_alone` says when they do not: when, at the moment the session begins to run on
the branch, no running session excludes it and no start call that excludes it has passed its checks.
-/

namespace Builderbot.Staged

/-- Two kinds of sessions of which one has to run alone. -/
def Excludes (k k' : BranchSessionScheduleKind) : Prop :=
  k.isExclusive = true ∨ k'.isExclusive = true

instance (k k' : BranchSessionScheduleKind) : Decidable (Excludes k k') :=
  inferInstanceAs (Decidable (k.isExclusive = true ∨ k'.isExclusive = true))

theorem excludes_symm (k k' : BranchSessionScheduleKind) (h : Excludes k k') : Excludes k' k := h.symm

theorem canStart_not_excludes (k k' : BranchSessionScheduleKind)
    (active : Finset BranchSessionScheduleKind)
    (h : canStartWithActiveBranchSessions k active = true) (hk' : k' ∈ active) : ¬Excludes k k' := by
  have hcompatible := (canStartWithActiveBranchSessions_iff k active).mp h k' hk'
  rintro (hk | hk)
  · exact hcompatible (.inl hk)
  · exact hcompatible (.inr (.inl hk))

/-! ## The condition -/

/-- A session of kind `k` can begin to run on the branch: no running session of the branch excludes
it, and neither does the session of a start call that has passed its checks under the lock. -/
def Uncontested (s : LaunchState) (b : String) (k : SessionKind) : Prop :=
  (∀ kind ∈ runningBranchSessionKinds s.rows b, ¬Excludes k.scheduleKind kind) ∧
    ∀ c ∈ s.lock b, ∀ p ∈ (s.calls c).passed,
      p.1 = b → ¬Excludes p.2.scheduleKind k.scheduleKind

instance (s : LaunchState) (b : String) (k : SessionKind) : Decidable (Uncontested s b k) :=
  inferInstanceAs (Decidable
    ((∀ kind ∈ runningBranchSessionKinds s.rows b, ¬Excludes k.scheduleKind kind) ∧
      ∀ c ∈ s.lock b, ∀ p ∈ (s.calls c).passed,
        p.1 = b → ¬Excludes p.2.scheduleKind k.scheduleKind))

/-- A commit pipeline inserts the commit of a running row only when it is uncontested. -/
def UncontestedPipeline (s : LaunchState) : Call → Prop
  | .pipeline b (.inserted row) =>
    ∀ r ∈ s.rows[row]?, r.status = .running → Uncontested s b r.kind
  | _ => True

/-- A resume acts on a session that has its artifact, and unless this is an automatic review only when
the session is uncontested. -/
def UncontestedResume (s : LaunchState) (row : ℕ) : Prop :=
  ∀ r ∈ s.rows[row]?, ∃ b ∈ r.branch, r.kind.blocksQueue = true → Uncontested s b r.kind

/-- The condition on the steps of commit pipelines and resumes. -/
def RespectsBranch (s : LaunchState) : LaunchStep → Prop
  | .advance c _ => UncontestedPipeline s (s.calls c)
  | .resume row => UncontestedResume s row
  | .callDrain .. => False
  | _ => True

instance (s : LaunchState) : ∀ call, Decidable (UncontestedPipeline s call)
  | .pipeline b (.inserted row) => inferInstanceAs (Decidable
      (∀ r ∈ s.rows[row]?, r.status = .running → Uncontested s b r.kind))
  | .pipeline _ .begin | .pipeline _ (.checked _) | .pipeline _ (.insert _) | .idle | .launch ..
  | .drain .. => .isTrue trivial

instance (s : LaunchState) (row : ℕ) : Decidable (UncontestedResume s row) :=
  inferInstanceAs (Decidable (∀ r ∈ s.rows[row]?, ∃ b ∈ r.branch,
    r.kind.blocksQueue = true → Uncontested s b r.kind))

instance (s : LaunchState) : ∀ l, Decidable (RespectsBranch s l)
  | .advance c _ => inferInstanceAs (Decidable (UncontestedPipeline s (s.calls c)))
  | .resume row => inferInstanceAs (Decidable (UncontestedResume s row))
  | .callDrain .. => .isFalse id
  | .callStartOrQueue .. | .callQueue .. | .callPipeline .. | .fail _ | .cancel _ | .finish .. =>
    .isTrue trivial

/-- What `Uncontested` says in the terms of the invariant. -/
theorem Uncontested.clear {s : LaunchState} {b : String} {k : SessionKind} (h : Uncontested s b k) :
    Clear Excludes s.rows b k :=
  fun i k' hrun => h.1 _ (mem_runningBranchSessionKinds.mpr ⟨i, k', hrun, rfl⟩)

theorem Uncontested.passed {s : LaunchState} {b : String} {k : SessionKind}
    (h : Uncontested s b k) (hs : LaunchInv Excludes s) (d : ℕ) (k₀ : SessionKind)
    (hd : (s.calls d).passed = some (b, k₀)) : ¬Excludes k₀.scheduleKind k.scheduleKind :=
  h.2 d ((hs.lock b d).mpr (holds_of_passed hd)) (b, k₀) hd rfl

/-! ## The steps -/

/-- The invariant of the launches without drains. -/
structure PipelineInv (s : LaunchState) : Prop where
  launch : LaunchInv Excludes s
  noDrain : ∀ c b pc, s.calls c ≠ .drain b pc

namespace PipelineInv

variable {s : LaunchState} {c : ℕ}

theorem noDrain_update (h : PipelineInv s) {call : Call} (hcall : ∀ b pc, call ≠ .drain b pc) (d : ℕ)
    (b : String) (pc : DrainPc) : Function.update s.calls c call d ≠ .drain b pc := by
  by_cases hdc : d = c
  · subst hdc
    rw [Function.update_self]
    exact hcall b pc
  · rw [Function.update_of_ne hdc]
    exact h.noDrain d b pc

theorem noDrain_advanceLaunch (h : PipelineInv s) {waits : Bool} {b : String}
    {type : BranchSessionType} {queueOnly : Bool} {pc : LaunchPc} {t : LaunchState}
    (hstep : s.advanceLaunch c waits b type queueOnly pc = some t) (d : ℕ) (b' : String)
    (pc' : DrainPc) : t.calls d ≠ .drain b' pc' := by
  have hlaunch : ∀ pc b' pc', Call.launch b type queueOnly pc ≠ .drain b' pc' := by simp
  have hidle : ∀ b' pc', Call.idle ≠ .drain b' pc' := by simp
  cases pc with
  | begin second =>
    simp only [LaunchState.advanceLaunch] at hstep
    split at hstep
    · obtain rfl := Option.some.inj hstep
      exact h.noDrain_update (hlaunch _) d b' pc'
    · cases hstep
  | locked | enqueue | launch =>
    obtain rfl := Option.some.inj hstep
    exact h.noDrain_update (hlaunch _) d b' pc'
  | noQueue second =>
    simp only [LaunchState.advanceLaunch] at hstep
    split at hstep
    · split at hstep
      · obtain rfl := Option.some.inj hstep
        exact h.noDrain_update (hlaunch _) d b' pc'
      · obtain rfl := Option.some.inj hstep
        simp only [LaunchState.goto, LaunchInv.unlock_calls]
        exact h.noDrain_update (hlaunch _) d b' pc'
    · obtain rfl := Option.some.inj hstep
      exact h.noDrain_update (hlaunch _) d b' pc'
  | enqueued | launched =>
    obtain rfl := Option.some.inj hstep
    simp only [LaunchState.goto, LaunchInv.unlock_calls]
    exact h.noDrain_update hidle d b' pc'

theorem advancePipeline (h : PipelineInv s) {b : String} {pc : PipelinePc}
    (hcall : s.calls c = .pipeline b pc) (hfree : UncontestedPipeline s (s.calls c)) :
    PipelineInv (s.advancePipeline c b pc) := by
  have hlock : ∀ {call : Call}, call.holds = none → ∀ b d,
      s.lock b = some d ↔ (Function.update s.calls c call d).holds = some b :=
    fun hholds => h.launch.lock_same (by rw [hcall, hholds]; rfl)
  cases pc with
  | begin => exact ⟨h.launch.goto (hlock rfl) rfl trivial, h.noDrain_update (by simp)⟩
  | checked hasRunning =>
    exact ⟨h.launch.goto (hlock rfl) rfl trivial, h.noDrain_update (by simp)⟩
  | insert status =>
    refine ⟨h.launch.insertRow (by rw [hcall]; rfl) rfl ?_, h.noDrain_update (by simp)⟩
    exact ⟨_, List.getElem?_concat_length, rfl, rfl⟩
  | inserted row =>
    have hprep := h.launch.prepared c
    rw [hcall] at hprep hfree
    obtain ⟨r, hr, -, -⟩ := hprep
    refine ⟨h.launch.link excludes_symm (hlock rfl) (by rw [hcall]; rfl) hr ?_,
      h.noDrain_update (by simp)⟩
    -- linking makes the row run on the branch, which is where the condition is needed
    intro hstatus
    have huncontested := hfree r hr hstatus
    exact ⟨huncontested.clear, fun d _ k₀ => huncontested.passed h.launch d k₀⟩

theorem begin (h : PipelineInv s) {call : Call} {t : LaunchState} (hstep : s.begin c call = some t)
    (hholds : call.holds = none) (hpending : call.pendingRow = none)
    (hprep : Prepared Excludes s.rows call) (hcall : ∀ b pc, call ≠ .drain b pc) :
    PipelineInv t := by
  unfold LaunchState.begin at hstep
  split at hstep
  · rename_i hidle
    obtain rfl := Option.some.inj hstep
    exact ⟨h.launch.goto (h.launch.lock_same (by rw [hidle, hholds]; rfl)) hpending hprep,
      h.noDrain_update hcall⟩
  · cases hstep

theorem step (s : LaunchState) (l : LaunchStep) (t : LaunchState) (h : PipelineInv s)
    (hrespects : RespectsBranch s l) (hstep : s.step l = some t) : PipelineInv t := by
  cases l with
  | callStartOrQueue | callQueue | callPipeline => exact h.begin hstep rfl rfl trivial (by simp)
  | callDrain c b => exact hrespects.elim
  | advance c waits =>
    simp only [LaunchState.step] at hstep
    split at hstep
    · cases hstep
    · rename_i b type queueOnly pc hcall
      exact ⟨h.launch.advanceLaunch excludes_symm canStart_not_excludes hcall hstep,
        h.noDrain_advanceLaunch hstep⟩
    · rename_i b pc hcall
      exact absurd hcall (h.noDrain c b pc)
    · rename_i b pc hcall
      obtain rfl := Option.some.inj hstep
      exact h.advancePipeline hcall hrespects
  | fail c =>
    obtain rfl := Option.some.inj hstep
    refine ⟨?_, ?_⟩
    · simp only [LaunchState.goto, LaunchInv.unlock_rows, LaunchInv.unlock_calls]
      exact h.launch.goto (h.launch.lock_release rfl) rfl trivial
    · simp only [LaunchState.goto, LaunchInv.unlock_calls]
      exact h.noDrain_update (by simp)
  | cancel row =>
    obtain rfl := Option.some.inj hstep
    exact ⟨h.launch.setStopped row (by simp), h.noDrain⟩
  | finish row status =>
    simp only [LaunchState.step] at hstep
    split at hstep
    · split at hstep
      · rename_i hstatus
        obtain rfl := Option.some.inj hstep
        exact ⟨h.launch.setStopped row hstatus.2.1, h.noDrain⟩
      · cases hstep
    · cases hstep
  -- a row is resumed only where no other of its branch runs or is on its way
  | resume row =>
    simp only [LaunchState.step] at hstep
    split at hstep
    · rename_i r hr
      split at hstep
      · obtain rfl := Option.some.inj hstep
        obtain ⟨b, hbranch, huncontested⟩ := hrespects r hr
        refine ⟨h.launch.setRunning excludes_symm hr hbranch (fun hblocks => ?_), h.noDrain⟩
        exact ⟨(huncontested hblocks).clear, (huncontested hblocks).passed h.launch⟩
      · cases hstep
    · cases hstep

end PipelineInv

/-- In every interleaving of start, queue, commit-pipeline and resume calls whose steps respect the
branch, a running commit or commit-pipeline session runs alone on its branch. -/
theorem exclusive_sessions_alone (rows : List SessionRow) (hrows : Safe Excludes rows)
    (ls : List LaunchStep) (s : LaunchState)
    (hrespects : Along LaunchState.step RespectsBranch (.init rows) ls)
    (h : run LaunchState.step (.init rows) ls = some s) (b : String) (i j : ℕ) (k k' : SessionKind)
    (hij : i ≠ j) (hi : Runs s.rows b i k) (hj : Runs s.rows b j k') :
    k.scheduleKind.isExclusive = false := by
  have hinit : PipelineInv (.init rows) := ⟨LaunchInv.init hrows, by simp [LaunchState.init]⟩
  have hsafe := (run_invariant_along PipelineInv.step hinit hrespects h).launch.safe
  have hok := hsafe b i j k k' hij hi hj
  by_contra hexclusive
  exact hok (.inl (by simpa using hexclusive))

/-- A rebase that is requested while the branch is idle, and ends before a note is started. -/
def rebaseThenNote : List LaunchStep :=
  [.callPipeline 0 "b", .advance 0 false, .advance 0 false, .advance 0 false, .advance 0 false,
    .finish 0 .completed, .callStartOrQueue 1 "b" .note, .advance 1 false, .advance 1 false,
    .advance 1 false, .advance 1 false, .advance 1 false, .advance 1 false, .advance 1 false,
    .advance 1 false]

theorem rebaseThenNote_alone :
    ∃ s, run LaunchState.step (.init []) rebaseThenNote = some s ∧
      s.rows = [⟨.completed, .commitPipeline, some "b"⟩, ⟨.running, .note, some "b"⟩] ∧
      ∀ i j k k', i ≠ j → Runs s.rows "b" i k → Runs s.rows "b" j k' →
        k.scheduleKind.isExclusive = false := by
  have hrun : (run LaunchState.step (.init []) rebaseThenNote).map (·.rows)
      = some [⟨.completed, .commitPipeline, some "b"⟩, ⟨.running, .note, some "b"⟩] := by decide
  obtain ⟨s, hs, heq⟩ := Option.map_eq_some_iff.mp hrun
  have hempty : Safe Excludes [] := by
    rintro b i j k k' - ⟨r, hr, -⟩
    cases hr
  have hrespects : Along LaunchState.step RespectsBranch (.init []) rebaseThenNote := by
    decide
  exact ⟨s, hs, heq, exclusive_sessions_alone [] hempty rebaseThenNote s hrespects hs "b"⟩

/-- A rebase is requested while the branch is idle; before its row is inserted, a commit session is
started on the branch. -/
def rebaseDuringStart : List LaunchStep :=
  [.callPipeline 0 "b", .advance 0 false, .advance 0 false, .callStartOrQueue 1 "b" .commit,
    .advance 1 false, .advance 1 false, .advance 1 false, .advance 1 false, .advance 1 false,
    .advance 1 false, .advance 1 false, .advance 1 false, .advance 0 false, .advance 0 false]

/-- The rebase pipeline runs beside the commit session; and so does a commit session that is resumed
while another one is running. -/
theorem commit_sessions_together :
    (∃ s, run LaunchState.step (.init []) rebaseDuringStart = some s ∧
        Runs s.rows "b" 0 .commit ∧ Runs s.rows "b" 1 .commitPipeline) ∧
      ∃ s, run LaunchState.step
          (.init [⟨.completed, .commit, some "b"⟩, ⟨.running, .commit, some "b"⟩]) [.resume 0]
            = some s ∧
        Runs s.rows "b" 0 .commit ∧ Runs s.rows "b" 1 .commit := by
  refine ⟨?_, ?_⟩
  · have hrun : (run LaunchState.step (.init []) rebaseDuringStart).map (·.rows)
        = some [⟨.running, .commit, some "b"⟩, ⟨.running, .commitPipeline, some "b"⟩] := by decide
    obtain ⟨s, hs, heq⟩ := Option.map_eq_some_iff.mp hrun
    refine ⟨s, hs, ?_⟩
    rw [heq]
    exact ⟨⟨_, rfl, rfl, rfl, rfl, rfl⟩, ⟨_, rfl, rfl, rfl, rfl, rfl⟩⟩
  · exact ⟨_, rfl, ⟨_, rfl, rfl, rfl, rfl, rfl⟩, ⟨_, rfl, rfl, rfl, rfl, rfl⟩⟩

end Builderbot.Staged
