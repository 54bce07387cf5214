import Builderbot.Staged.LaunchInvariant

/-!
# Branch exclusivity under queue drains

A drain takes no lock and does not look again at the running sessions when it claims a queued one.
What makes it safe is an order between the calls. A start call goes on only when no user session of
the branch is queued, and queued rows are only inserted under the lock it holds. The queue snapshot
of a drain comes before its active set, snapshots are sorted by age, and a row never returns to the
queue: so as long as a drain can still claim a row of its snapshot, whatever runs is in its active
set or is an older row of the same snapshot.
-/

namespace Builderbot.Staged

/-! ## What the calls know about the queue -/

/-- No user session of the branch is queued. -/
def Quiet (rows : List SessionRow) (b : String) : Prop :=
  ∀ i k, Waits rows b i k → k.blocksQueue = false

/-- Every session of the branch is older than the row. -/
def LastOf (rows : List SessionRow) (b : String) (row : ℕ) : Prop :=
  ∀ i r, rows[i]? = some r → r.branch = some b → i < row

/-- What remains of a queue snapshot: sessions of the branch, oldest first, with every queued session
that is older than one of them. -/
structure QueueOk (rows : List SessionRow) (b : String) (queue : List ℕ) : Prop where
  sorted : queue.Pairwise (· < ·)
  linked : ∀ x ∈ queue, ∃ r, rows[x]? = some r ∧ r.branch = some b
  closed : ∀ x ∈ queue, ∀ i k, Waits rows b i k → i < x → i ∈ queue

/-- As long as a row of the snapshot is queued, whatever runs is in the active set or an older row
of the snapshot. -/
def Fresh (rows : List SessionRow) (b : String) (queue : List ℕ)
    (active : Finset BranchSessionScheduleKind) : Prop :=
  ∀ x ∈ queue, ∀ kx, Waits rows b x kx → kx.blocksQueue = true →
    ∀ i k, Runs rows b i k → k.scheduleKind ∈ active ∨ i ∈ queue ∧ i < x

/-- What a call knows about the queue of its branch. Commit pipelines know nothing. -/
def Orderly (rows : List SessionRow) : Call → Prop
  | .launch b _ _ (.noQueue _) | .launch b _ _ .launch => Quiet rows b
  | .launch b _ _ (.enqueued row) => LastOf rows b row
  | .launch b _ _ (.launched row) => Quiet rows b ∧ LastOf rows b row
  | .drain b (.snapshot queue) => QueueOk rows b queue
  | .drain b (.ready queue active) => QueueOk rows b queue ∧ Fresh rows b queue active
  | .pipeline .. => False
  | _ => True

/-- The branch of a call. -/
def Call.branchId : Call → Option String
  | idle => none
  | launch b _ _ _ | drain b _ | pipeline b _ => some b

/-- A change of the rows that lets no session of the branch run or wait anew and keeps which rows
belong to it. -/
structure Shrinks (rows rows' : List SessionRow) (b : String) : Prop where
  runs : ∀ i k, Runs rows' b i k → Runs rows b i k
  waits : ∀ i k, Waits rows' b i k → Waits rows b i k
  linked : ∀ (i : ℕ) (r' : SessionRow), rows'[i]? = some r' → r'.branch = some b →
    ∃ r : SessionRow, rows[i]? = some r ∧ r.branch = some b
  keeps : ∀ (i : ℕ) (r : SessionRow), rows[i]? = some r → r.branch = some b →
    ∃ r' : SessionRow, rows'[i]? = some r' ∧ r'.branch = some b

variable {rows : List SessionRow} {b : String} {queue : List ℕ}

theorem QueueOk.mono {rows' : List SessionRow}
    (h : QueueOk rows b queue) (hs : Shrinks rows rows' b) : QueueOk rows' b queue := by
  refine ⟨h.sorted, ?_, ?_⟩
  · intro x hx
    obtain ⟨r, hr, hbranch⟩ := h.linked x hx
    exact hs.keeps x r hr hbranch
  · exact fun x hx i k hw hlt => h.closed x hx i k (hs.waits i k hw) hlt

/-- A claim makes no row wait, so it keeps every snapshot. -/
theorem QueueOk.setRunning
    (h : QueueOk rows b queue) (id : ℕ) : QueueOk (setStatus rows id .running) b queue where
  sorted := h.sorted
  linked x hx := by
    obtain ⟨r, hr, hbranch⟩ := h.linked x hx
    obtain ⟨r', hr', hb', -⟩ := getElem?_setStatus_of_some id .running hr
    exact ⟨r', hr', hb'.trans hbranch⟩
  closed x hx i k hw hlt := h.closed x hx i k (waits_setStatus (by simp) hw).1 hlt

variable {id : ℕ}

/-- The rest of a snapshot after a row that is no longer queued. -/
theorem QueueOk.tail
    (h : QueueOk rows b (id :: queue)) (hid : ∀ k, ¬Waits rows b id k) : QueueOk rows b queue := by
  refine ⟨(List.pairwise_cons.mp h.sorted).2, fun x hx => h.linked x (List.mem_cons_of_mem _ hx), ?_⟩
  intro x hx i k hw hlt
  rcases List.mem_cons.mp (h.closed x (List.mem_cons_of_mem _ hx) i k hw hlt) with rfl | hmem
  · exact absurd hw (hid k)
  · exact hmem

variable {r : SessionRow}

/-- After a claim the rest of the snapshot is fresh for the active set with the claimed session. -/
theorem Fresh.claim {active : Finset BranchSessionScheduleKind}
    (h : Fresh rows b (id :: queue) active) (hr : rows[id]? = some r) (hstatus : r.status = .queued) :
    Fresh (setStatus rows id .running) b queue
      (if r.kind.blocksQueue then insert r.kind.scheduleKind active else active) := by
  intro x hx kx hwx hbx i k hrun
  obtain ⟨hwx, -⟩ := waits_setStatus (by simp) hwx
  have hsub : active ⊆ if r.kind.blocksQueue then insert r.kind.scheduleKind active else active := by
    split
    · exact Finset.subset_insert _ _
    · exact Finset.Subset.refl _
  rcases runs_setStatus hrun with hold | ⟨rfl, -, ri, hri, -, rfl, hblocks⟩
  · rcases h x (List.mem_cons_of_mem _ hx) kx hwx hbx i k hold with hmem | ⟨hmem, hlt⟩
    · exact .inl (hsub hmem)
    · rcases List.mem_cons.mp hmem with rfl | hmem
      · -- the claimed row was queued, so it did not run before
        obtain ⟨ri, hri, hrunning, -⟩ := hold
        obtain rfl := Option.some.inj (hr.symm.trans hri)
        rw [hstatus] at hrunning
        cases hrunning
      · exact .inr ⟨hmem, hlt⟩
  · -- the claimed row itself
    obtain rfl := Option.some.inj (hr.symm.trans hri)
    rw [if_pos hblocks]
    exact .inl (Finset.mem_insert_self _ _)

variable {call : Call} {k : SessionKind}

/-- A start call that has passed its checks saw no queued user session. -/
theorem Orderly.quiet_of_passed (h : Orderly rows call)
    (hpassed : call.passed = some (b, k)) : Quiet rows b := by
  unfold Call.passed at hpassed
  split at hpassed
  · obtain ⟨rfl, -⟩ := Prod.mk.inj (Option.some.inj hpassed)
    exact h
  · obtain ⟨rfl, -⟩ := Prod.mk.inj (Option.some.inj hpassed)
    exact h.1
  · cases hpassed

theorem Orderly.mono {rows' : List SessionRow} (h : Orderly rows call)
    (hs : ∀ b, call.branchId = some b → Shrinks rows rows' b) : Orderly rows' call := by
  have hquiet : ∀ b, call.branchId = some b → Quiet rows b → Quiet rows' b :=
    fun b hb hq i k hw => hq i k ((hs b hb).waits i k hw)
  have hlast : ∀ b row, call.branchId = some b → LastOf rows b row → LastOf rows' b row := by
    intro b row hb hl i r' hr' hbranch
    obtain ⟨r, hr, hr_branch⟩ := (hs b hb).linked i r' hr' hbranch
    exact hl i r hr hr_branch
  unfold Orderly at h ⊢
  split at h
  · exact hquiet _ rfl h
  · exact hquiet _ rfl h
  · exact hlast _ _ rfl h
  · exact ⟨hquiet _ rfl h.1, hlast _ _ rfl h.2⟩
  · exact h.mono (hs _ rfl)
  · rename_i b queue active
    refine ⟨h.1.mono (hs b rfl), ?_⟩
    intro x hx kx hw hblocks i k hrun
    exact h.2 x hx kx ((hs b rfl).waits x kx hw) hblocks i k ((hs b rfl).runs i k hrun)
  · exact h
  · trivial

theorem shrinks_insertRow (status : SessionStatus) (kind : SessionKind)
    (b : String) : Shrinks rows (rows ++ [⟨status, kind, none⟩]) b where
  runs _ _ := runs_insertRow
  waits _ _ := waits_insertRow
  linked i r' hr' hbranch := ⟨r', getElem?_insertRow_linked rfl hr' (by simp [hbranch]), hbranch⟩
  keeps i r hr hbranch := ⟨r, getElem?_insertRow hr _, hbranch⟩

variable {status : SessionStatus}

/-- Setting a status keeps which rows belong to a branch; it shrinks the branch unless it makes one
of its sessions run or wait. -/
theorem shrinks_setStatus (hqueued : status ≠ .queued)
    (hrunning : status = .running → ∀ r, rows[id]? = some r → r.branch = some b →
      r.kind.blocksQueue = false) : Shrinks rows (setStatus rows id status) b where
  runs i k hrun := by
    rcases runs_setStatus hrun with hold | ⟨rfl, hstatus, r, hr, hbranch, rfl, hblocks⟩
    · exact hold
    · rw [hrunning hstatus r hr hbranch] at hblocks
      cases hblocks
  waits i k hw := (waits_setStatus hqueued hw).1
  linked i r' hr' hbranch := by
    obtain ⟨r, hr, hb, -⟩ := of_getElem?_setStatus hr'
    exact ⟨r, hr, hb ▸ hbranch⟩
  keeps i r hr hbranch := by
    obtain ⟨r', hr', hb, -⟩ := getElem?_setStatus_of_some id status hr
    exact ⟨r', hr', hb.trans hbranch⟩

theorem shrinks_linkArtifact {row : ℕ} {b' : String}
    (hrow : Unlinked rows row k) (hne : b' ≠ b) : Shrinks rows (linkArtifact rows row b) b' where
  runs i k hrun := by
    rcases runs_linkArtifact hrun with hold | ⟨-, rfl, -⟩
    · exact hold
    · exact absurd rfl hne
  waits i k hw := by
    rcases waits_linkArtifact hw with hold | ⟨-, rfl⟩
    · exact hold
    · exact absurd rfl hne
  linked i r' hr' hbranch := by
    rcases of_getElem?_linkArtifact hr' with ⟨-, hr⟩ | ⟨-, r, -, hb, -⟩
    · exact ⟨r', hr, hbranch⟩
    · exact absurd (Option.some.inj (hbranch.symm.trans hb)) hne
  keeps i r hr hbranch := by
    have hi : row ≠ i := by
      rintro rfl
      obtain ⟨r', hr', hnone, -⟩ := hrow
      obtain rfl := Option.some.inj (hr.symm.trans hr')
      rw [hbranch] at hnone
      cases hnone
    exact ⟨r, by rw [getElem?_linkArtifact, if_neg hi]; exact hr, hbranch⟩

/-! ## The steps -/

/-- The invariant of the launches without resumes and commit pipelines. -/
structure ExclusivityInv (s : LaunchState) : Prop where
  launch : LaunchInv Incompatible s
  orderly : ∀ c, Orderly s.rows (s.calls c)

theorem incompatible_symm (k k' : BranchSessionScheduleKind) (h : Incompatible k k') :
    Incompatible k' k := h.symm

theorem canStart_compatible (k k' : BranchSessionScheduleKind)
    (active : Finset BranchSessionScheduleKind)
    (h : canStartWithActiveBranchSessions k active = true) (hk' : k' ∈ active) :
    ¬Incompatible k k' :=
  (canStartWithActiveBranchSessions_iff k active).mp h k' hk'

namespace Orderly

/-- A call that moves on leaves the others as they are. -/
theorem update {calls : ℕ → Call} {c : ℕ}
    (hself : Orderly rows call) (hother : ∀ d ≠ c, Orderly rows (calls d)) (d : ℕ) :
    Orderly rows (Function.update calls c call d) := by
  by_cases hdc : d = c
  · subst hdc
    simpa using hself
  · simpa [hdc] using hother d hdc

/-- Linking the youngest row of a branch adds nothing to the snapshots of the drains: they hold older
rows only. A running row is linked only while no user session is queued. -/
theorem link {row : ℕ} (h : Orderly rows call) (hr : rows[row]? = some r) (hnone : r.branch = none)
    (hlast : LastOf rows b row) (hrun : r.status = .running → Quiet rows b)
    (hholds : call.holds ≠ some b) : Orderly (linkArtifact rows row b) call := by
  have hunlinked : Unlinked rows row r.kind := ⟨r, hr, hnone, rfl⟩
  by_cases hb : call.branchId = some b
  · have hqueue : ∀ queue, QueueOk rows b queue → QueueOk (linkArtifact rows row b) b queue := by
      intro queue hq
      -- the snapshot holds older rows only, so the linked row is not below any of them
      have hold : ∀ x ∈ queue, x < row := by
        intro x hx
        obtain ⟨rx, hrx, hbranch⟩ := hq.linked x hx
        exact hlast x rx hrx hbranch
      refine ⟨hq.sorted, ?_, ?_⟩
      · intro x hx
        obtain ⟨rx, hrx, hbranch⟩ := hq.linked x hx
        have hne : row ≠ x := Nat.ne_of_gt (hold x hx)
        exact ⟨rx, by rw [getElem?_linkArtifact, if_neg hne]; exact hrx, hbranch⟩
      · intro x hx i k hw hlt
        rcases waits_linkArtifact hw with hold' | ⟨rfl, -⟩
        · exact hq.closed x hx i k hold' hlt
        · exact absurd hlt (Nat.lt_asymm (hold x hx))
    cases call with
    | idle => cases hb
    | pipeline b' pc => exact h
    | launch b' type queueOnly pc =>
      obtain rfl : b' = b := Option.some.inj hb
      cases pc with
      | begin second => trivial
      | _ => exact absurd rfl hholds
    | drain b' pc =>
      obtain rfl : b' = b := Option.some.inj hb
      cases pc with
      | begin => trivial
      | snapshot queue => exact hqueue queue h
      | ready queue active =>
        refine ⟨hqueue queue h.1, ?_⟩
        intro x hx kx hw hblocks i k hi
        have hw' : Waits rows b' x kx := by
          rcases waits_linkArtifact hw with hold | ⟨rfl, -⟩
          · exact hold
          · -- a row of the snapshot is linked already
            obtain ⟨rx, hrx, hbranch⟩ := h.1.linked row hx
            obtain rfl := Option.some.inj (hr.symm.trans hrx)
            rw [hbranch] at hnone
            cases hnone
        rcases runs_linkArtifact hi with hold | ⟨rfl, -, r', hr', hstatus, -⟩
        · exact h.2 x hx kx hw' hblocks i k hold
        · -- the linked row runs, so no user session is queued
          obtain rfl := Option.some.inj (hr.symm.trans hr')
          rw [hrun hstatus x kx hw'] at hblocks
          cases hblocks
  · refine h.mono fun b' hb' => shrinks_linkArtifact hunlinked ?_
    rintro rfl
    exact hb hb'

/-- A claim by one drain keeps what the other calls know. The claimed row is the oldest queued one of
the branch, so it is an older row of every other snapshot that still has a queued row. -/
theorem claim (h : Orderly rows call) (hqueue : QueueOk rows b (id :: queue))
    (hw : Waits rows b id k) : Orderly (setStatus rows id .running) call := by
  obtain ⟨r, hr, hstatus, hbranch, rfl⟩ := hw
  have hwaits : ∀ b' i k', Waits (setStatus rows id .running) b' i k' →
      Waits rows b' i k' ∧ id ≠ i := fun b' i k' => waits_setStatus (by simp)
  by_cases hblocks : r.kind.blocksQueue = true ∧ call.branchId = some b
  · obtain ⟨hblocks, hb⟩ := hblocks
    have hshrink : ∀ i k', Runs (setStatus rows id .running) b i k' → Runs rows b i k' ∨ id = i := by
      intro i k' hi
      rcases runs_setStatus hi with hold | ⟨hid, -⟩
      · exact .inl hold
      · exact .inr hid
    -- no row is new, so the last one stays the last
    have hlinked : ∀ row, LastOf rows b row → LastOf (setStatus rows id .running) b row := by
      intro row hl i r' hr' hb'
      obtain ⟨ri, hri, hbi, -⟩ := of_getElem?_setStatus hr'
      exact hl i ri hri (hbi ▸ hb')
    have hquiet : Quiet rows b → Quiet (setStatus rows id .running) b :=
      fun hq i k' hw' => hq i k' (hwaits b i k' hw').1
    cases call with
    | idle => cases hb
    | pipeline b' pc => exact h
    | launch b' type queueOnly pc =>
      obtain rfl : b' = b := Option.some.inj hb
      cases pc with
      | noQueue second => exact hquiet h
      | launch => exact hquiet h
      | enqueued row => exact hlinked row h
      | launched row => exact ⟨hquiet h.1, hlinked row h.2⟩
      | _ => trivial
    | drain b' pc =>
      obtain rfl : b' = b := Option.some.inj hb
      cases pc with
      | begin => trivial
      | snapshot q => exact QueueOk.setRunning h id
      | ready q active =>
        refine ⟨h.1.setRunning id, ?_⟩
        intro x hx kx hwx hbx i k' hi
        obtain ⟨hwx, hne⟩ := hwaits b' x kx hwx
        rcases hshrink i k' hi with hold | rfl
        · exact h.2 x hx kx hwx hbx i k' hold
        · -- the claimed row is older than `x`: otherwise `x` would be in the claiming snapshot
          have hlt : id < x := by
            rcases Nat.lt_or_gt_of_ne hne with hlt | hgt
            · exact hlt
            · have hmem := hqueue.closed id List.mem_cons_self x kx hwx hgt
              rcases List.mem_cons.mp hmem with rfl | hmem
              · exact absurd rfl hne
              · exact (List.pairwise_cons.mp hqueue.sorted).1 x hmem
          have hwid : Waits rows b' id r.kind := ⟨r, hr, hstatus, hbranch, rfl⟩
          exact .inr ⟨h.1.closed x hx id r.kind hwid hlt, hlt⟩
  -- another branch, or a kind that blocks nobody: fewer rows wait and no more run
  · refine h.mono fun b' hb' => shrinks_setStatus (by simp) ?_
    intro _ r' hr' hbr'
    obtain rfl := Option.some.inj (hr.symm.trans hr')
    obtain rfl := Option.some.inj (hbranch.symm.trans hbr')
    simpa [hb'] using hblocks

end Orderly

namespace ExclusivityInv

variable {s : LaunchState} {c : ℕ}

theorem holds_ne (h : ExclusivityInv s) (hc : (s.calls c).holds = some b) {d : ℕ}
    (hdc : d ≠ c) : (s.calls d).holds ≠ some b := by
  intro hd
  have hlock : s.lock b = some c := (h.launch.lock b c).mpr hc
  rw [(h.launch.lock b d).mpr hd, Option.some.injEq] at hlock
  exact hdc hlock

/-- A call that moves on without a change of the rows. -/
theorem orderly_goto (h : ExclusivityInv s) (hself : Orderly s.rows call) (d : ℕ) :
    Orderly s.rows (Function.update s.calls c call d) :=
  Orderly.update hself (fun d _ => h.orderly d) d

theorem orderly_insertRow (h : ExclusivityInv s)
    {kind : SessionKind} (hself : Orderly (s.rows ++ [⟨status, kind, none⟩]) call) (d : ℕ) :
    Orderly (s.rows ++ [⟨status, kind, none⟩]) (Function.update s.calls c call d) :=
  Orderly.update hself
    (fun d _ => (h.orderly d).mono fun b _ => shrinks_insertRow status kind b) d

theorem lastOf_length (rows : List SessionRow) (status : SessionStatus) (kind : SessionKind)
    (b : String) : LastOf (rows ++ [⟨status, kind, none⟩]) b rows.length := by
  intro i r hr hbranch
  have hold := getElem?_insertRow_linked rfl hr (by simp [hbranch])
  exact (List.getElem?_eq_some_iff.mp hold).1

theorem orderly_advanceLaunch (h : ExclusivityInv s) {waits : Bool}
    {type : BranchSessionType} {queueOnly : Bool} {pc : LaunchPc}
    (hcall : s.calls c = .launch b type queueOnly pc) {t : LaunchState}
    (hstep : s.advanceLaunch c waits b type queueOnly pc = some t) (d : ℕ) :
    Orderly t.rows (t.calls d) := by
  have hord := h.orderly c
  have hprep := h.launch.prepared c
  rw [hcall] at hord hprep
  cases pc with
  | begin second =>
    simp only [LaunchState.advanceLaunch] at hstep
    split at hstep
    · obtain rfl := Option.some.inj hstep
      refine h.orderly_goto ?_ d
      cases queueOnly <;> trivial
    · cases hstep
  | locked second =>
    obtain rfl := Option.some.inj hstep
    refine h.orderly_goto ?_ d
    cases hq : (waits || hasQueuedUserBranchSession s.rows b)
    · rw [Bool.or_eq_false_iff] at hq
      exact hasQueuedUserBranchSession_eq_false.mp hq.2
    · trivial
  -- the lock is held, so nothing has been queued since the check
  | noQueue second =>
    simp only [LaunchState.advanceLaunch] at hstep
    split at hstep
    · split at hstep
      · obtain rfl := Option.some.inj hstep
        refine h.orderly_goto ?_ d
        exact hord
      · obtain rfl := Option.some.inj hstep
        simp only [LaunchState.goto, LaunchInv.unlock_rows, LaunchInv.unlock_calls]
        refine h.orderly_goto ?_ d
        trivial
    · obtain rfl := Option.some.inj hstep
      refine h.orderly_goto ?_ d
      trivial
  -- the new row is the last of its branch
  | enqueue =>
    obtain rfl := Option.some.inj hstep
    refine h.orderly_insertRow ?_ d
    exact lastOf_length s.rows _ _ b
  | launch =>
    obtain rfl := Option.some.inj hstep
    refine h.orderly_insertRow ?_ d
    exact ⟨fun i k hw => hord i k (waits_insertRow hw), lastOf_length s.rows _ _ b⟩
  | enqueued row =>
    obtain rfl := Option.some.inj hstep
    obtain ⟨r, hr, hnone, -, hstatus⟩ := hprep
    simp only [LaunchState.goto, LaunchInv.unlock_calls]
    refine Orderly.update ?_ (fun d hdc => ?_) d
    · trivial
    · exact (h.orderly d).link hr hnone hord (fun hrun => absurd hrun hstatus)
        (h.holds_ne (by rw [hcall]; rfl) hdc)
  | launched row =>
    obtain rfl := Option.some.inj hstep
    obtain ⟨⟨r, hr, hnone, -⟩, -⟩ := hprep
    simp only [LaunchState.goto, LaunchInv.unlock_calls]
    refine Orderly.update ?_ (fun d hdc => ?_) d
    · trivial
    · exact (h.orderly d).link hr hnone hord.2 (fun _ => hord.1)
        (h.holds_ne (by rw [hcall]; rfl) hdc)

/-- A drain that moves on without a change of the rows. -/
theorem drain_goto (h : ExclusivityInv s) {pc : DrainPc} (hcall : s.calls c = .drain b pc)
    (hholds : call.holds = none) (hpending : call.pendingRow = none)
    (hprep : Prepared Incompatible s.rows call) (hself : Orderly s.rows call) :
    ExclusivityInv (s.goto c call) :=
  ⟨h.launch.goto (h.launch.lock_same (by rw [hcall, hholds]; rfl)) hpending hprep,
    h.orderly_goto hself⟩

/-- Claiming the head of the snapshot: by freshness everything that runs is in the active set, with
which the head is compatible. -/
theorem drain_claim (h : ExclusivityInv s) {active : Finset BranchSessionScheduleKind}
    (hcall : s.calls c = .drain b (.ready (id :: queue) active))
    (hr : s.rows[id]? = some r) (hbranch : r.branch = some b) (hstatus : r.status = .queued)
    (hstart : canStartWithActiveBranchSessions r.kind.scheduleKind active = true) :
    ExclusivityInv ({ s with rows := setStatus s.rows id .running }.goto c (.drain b (.ready queue
      (if r.kind.blocksQueue then insert r.kind.scheduleKind active else active)))) := by
  have hord := h.orderly c
  rw [hcall] at hord
  obtain ⟨hqueue, hfresh⟩ := hord
  have hw : Waits s.rows b id r.kind := ⟨r, hr, hstatus, hbranch, rfl⟩
  have hhead : ∀ x ∈ queue, id < x := (List.pairwise_cons.mp hqueue.sorted).1
  have hlaunch : LaunchInv Incompatible { s with rows := setStatus s.rows id .running } := by
    refine h.launch.setRunning incompatible_symm hr hbranch (fun hblocks => ⟨?_, ?_⟩)
    · -- whatever runs is in the active set: the head has no older row in the snapshot
      intro i k hrun
      refine canStart_compatible _ _ active hstart ?_
      rcases hfresh id List.mem_cons_self r.kind hw hblocks i k hrun with hmem | ⟨hmem, hlt⟩
      · exact hmem
      · rcases List.mem_cons.mp hmem with rfl | hmem
        · exact absurd hlt (Nat.lt_irrefl _)
        · exact absurd hlt (Nat.lt_asymm (hhead i hmem))
    · intro d k₀ hpassed
      rw [(h.orderly d).quiet_of_passed hpassed id r.kind hw] at hblocks
      cases hblocks
  refine ⟨hlaunch.goto (hlaunch.lock_same (by simp only [hcall]; rfl)) rfl trivial, ?_⟩
  refine Orderly.update ⟨?_, hfresh.claim hr hstatus⟩ (fun d _ => (h.orderly d).claim hqueue hw)
  refine (hqueue.setRunning id).tail fun k hwaits => ?_
  exact (waits_setStatus (by simp) hwaits).2 rfl

theorem advanceDrain (h : ExclusivityInv s) {pc : DrainPc}
    (hcall : s.calls c = .drain b pc) : ExclusivityInv (s.advanceDrain c b pc) := by
  have hord := h.orderly c
  rw [hcall] at hord
  cases pc with
  | begin =>
    refine h.drain_goto hcall rfl rfl trivial
      ⟨getQueuedSessionsForBranch_sorted, ?_, ?_⟩
    · intro x hx
      obtain ⟨k, r, hr, -, hbranch, -⟩ := mem_getQueuedSessionsForBranch.mp hx
      exact ⟨r, hr, hbranch⟩
    · exact fun x _ i k hw _ => mem_getQueuedSessionsForBranch.mpr ⟨k, hw⟩
  | snapshot queue =>
    refine h.drain_goto hcall rfl rfl trivial ⟨hord, ?_⟩
    exact fun x _ kx _ _ i k hrun => .inl (mem_runningBranchSessionKinds.mpr ⟨i, k, hrun, rfl⟩)
  | ready queue active =>
    cases queue with
    | nil => exact h.drain_goto hcall rfl rfl trivial trivial
    | cons id queue =>
      obtain ⟨r, hr, hbranch⟩ := hord.1.linked id List.mem_cons_self
      have hschedule : r.schedule b = some (r.kind.scheduleKind, r.kind.blocksQueue) := by
        rw [SessionRow.schedule, if_pos hbranch]
      simp only [LaunchState.advanceDrain, hr, hschedule]
      split
      · exact h.drain_goto hcall rfl rfl trivial trivial
      · rename_i hstart
        split
        · rename_i hstatus
          exact h.drain_claim hcall hr hbranch hstatus (by simpa using hstart)
        · rename_i hstatus
          refine h.drain_goto hcall rfl rfl trivial (hord.1.tail ?_)
          rintro k ⟨r', hr', hqueued, -⟩
          obtain rfl := Option.some.inj (hr.symm.trans hr')
          exact hstatus hqueued

/-- A session stops running or leaves the queue. -/
theorem setStopped (h : ExclusivityInv s) (id : ℕ)
    (hrunning : status ≠ .running) (hqueued : status ≠ .queued) :
    ExclusivityInv { s with rows := setStatus s.rows id status } :=
  ⟨h.launch.setStopped id hrunning,
    fun d => (h.orderly d).mono fun _ _ => shrinks_setStatus hqueued fun hr => absurd hr hrunning⟩

theorem begin (h : ExclusivityInv s) {t : LaunchState}
    (hstep : s.begin c call = some t) (hholds : call.holds = none) (hpending : call.pendingRow = none)
    (hprep : Prepared Incompatible s.rows call) (hself : Orderly s.rows call) :
    ExclusivityInv t := by
  unfold LaunchState.begin at hstep
  split at hstep
  · rename_i hidle
    obtain rfl := Option.some.inj hstep
    exact ⟨h.launch.goto (h.launch.lock_same (by rw [hidle, hholds]; rfl)) hpending hprep,
      h.orderly_goto hself⟩
  · cases hstep

end ExclusivityInv

/-- The steps of the calls that start, queue and drain agent sessions, and of everything that ends a
session: all but commit pipelines and resumes. -/
def LaunchStep.IsAgentStep : LaunchStep → Prop
  | .callPipeline .. | .resume _ => False
  | _ => True

theorem ExclusivityInv.step (s : LaunchState) (l : LaunchStep) (t : LaunchState)
    (h : ExclusivityInv s) (hagent : l.IsAgentStep) (hstep : s.step l = some t) :
    ExclusivityInv t := by
  cases l with
  | callStartOrQueue | callQueue | callDrain => exact h.begin hstep rfl rfl trivial trivial
  -- the agent steps have no pipeline and no resume
  | callPipeline c b => exact hagent.elim
  | resume row => exact hagent.elim
  | advance c waits =>
    simp only [LaunchState.step] at hstep
    split at hstep
    · cases hstep
    · rename_i b type queueOnly pc hcall
      exact ⟨h.launch.advanceLaunch incompatible_symm canStart_compatible hcall hstep,
        h.orderly_advanceLaunch hcall hstep⟩
    · rename_i b pc hcall
      obtain rfl := Option.some.inj hstep
      exact h.advanceDrain hcall
    · rename_i b pc hcall
      have hfalse := h.orderly c
      rw [hcall] at hfalse
      exact hfalse.elim
  | fail c =>
    obtain rfl := Option.some.inj hstep
    refine ⟨?_, ?_⟩
    · simp only [LaunchState.goto, LaunchInv.unlock_rows, LaunchInv.unlock_calls]
      exact h.launch.goto (h.launch.lock_release rfl) rfl trivial
    · simp only [LaunchState.goto, LaunchInv.unlock_rows, LaunchInv.unlock_calls]
      exact h.orderly_goto trivial
  | cancel row =>
    obtain rfl := Option.some.inj hstep
    exact h.setStopped row (by simp) (by simp)
  | finish row status =>
    simp only [LaunchState.step] at hstep
    split at hstep
    · split at hstep
      · rename_i hstatus
        obtain rfl := Option.some.inj hstep
        exact h.setStopped row hstatus.2.1 hstatus.2.2
      · cases hstep
    · cases hstep

/-- From a store whose running sessions are compatible, no interleaving of start, queue and drain
calls, failures, cancellations and terminal transitions reaches a state in which a branch has a
running commit session together with another running session, or two running reviews. Automatic
reviews do not count. -/
theorem branch_sessions_exclusive (rows : List SessionRow) (hrows : Safe Incompatible rows)
    (ls : List LaunchStep) (s : LaunchState) (hagent : ∀ l ∈ ls, l.IsAgentStep)
    (h : run LaunchState.step (.init rows) ls = some s) (b : String) (i j : ℕ) (k k' : SessionKind)
    (hij : i ≠ j) (hi : Runs s.rows b i k) (hj : Runs s.rows b j k') :
    k ≠ .commit ∧ ¬(k = .review false ∧ k' = .review false) := by
  have hinit : ExclusivityInv (.init rows) := ⟨LaunchInv.init hrows, fun _ => trivial⟩
  have hsafe := (run_invariant_along ExclusivityInv.step hinit (Along.of_forall hagent) h).launch.safe
  have hcompatible := hsafe b i j k k' hij hi hj
  refine ⟨?_, ?_⟩
  · rintro rfl
    exact hcompatible (.inl rfl)
  · rintro ⟨rfl, rfl⟩
    exact hcompatible (.inr (.inr ⟨rfl, rfl⟩))

/-- A note is queued behind a running commit session and drained after it. -/
def queuedBehindCommit : List LaunchStep :=
  [.callStartOrQueue 0 "b" .note, .advance 0 false, .advance 0 false, .advance 0 false,
    .callDrain 1 "b", .advance 0 false, .advance 0 false, .finish 0 .completed,
    .advance 1 false, .advance 1 false, .advance 1 false]

/-- The note runs at the end, alone. -/
theorem queuedBehindCommit_exclusive :
    ∃ s, run LaunchState.step (.init [⟨.running, .commit, some "b"⟩]) queuedBehindCommit = some s ∧
      s.rows = [⟨.completed, .commit, some "b"⟩, ⟨.running, .note, some "b"⟩] ∧
      ∀ i j k k', i ≠ j → Runs s.rows "b" i k → Runs s.rows "b" j k' → k ≠ .commit := by
  have hrun : (run LaunchState.step (.init [⟨.running, .commit, some "b"⟩]) queuedBehindCommit).map
      (·.rows) = some [⟨.completed, .commit, some "b"⟩, ⟨.running, .note, some "b"⟩] := by decide
  obtain ⟨s, hs, heq⟩ := Option.map_eq_some_iff.mp hrun
  have hone : Safe Incompatible [⟨.running, .commit, some "b"⟩] := by
    rintro b i j k k' hij ⟨r, hr, -⟩ ⟨r', hr', -⟩
    have hi := (List.getElem?_eq_some_iff.mp hr).1
    have hj := (List.getElem?_eq_some_iff.mp hr').1
    simp only [List.length_singleton] at hi hj
    omega
  have hagent : ∀ l ∈ queuedBehindCommit, l.IsAgentStep := by
    simp [queuedBehindCommit, LaunchStep.IsAgentStep]
  refine ⟨s, hs, heq, fun i j k k' hij hi hj => ?_⟩
  exact (branch_sessions_exclusive _ hone queuedBehindCommit s hagent hs "b" i j k k' hij hi hj).1

end Builderbot.Staged
