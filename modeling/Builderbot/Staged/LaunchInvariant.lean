import Builderbot.Staged.BranchSessions

/-!
# What every launch of a branch session keeps

The facts that do not depend on the queue: the launch lock has one holder, a call that has inserted a
row and not yet its artifact is the only one to link that row, a start call that has passed its
checks does not clash with any running session of its branch, and the running sessions of a branch do
not clash with each other.

`clash` is a relation between kinds of sessions that `can_start_with_active_branch_sessions` rules
out, so that the same lemmas serve the full compatibility rule and exclusivity alone.
-/

namespace Builderbot.Staged

/-! ## Running and queued rows -/

/-- Row `i` is a running session of the branch, of kind `k`, and not an automatic review. -/
def Runs (rows : List SessionRow) (b : String) (i : ℕ) (k : SessionKind) : Prop :=
  ∃ r, rows[i]? = some r ∧ r.status = .running ∧ r.branch = some b ∧ r.kind = k ∧
    k.blocksQueue = true

/-- Row `i` is a queued session of the branch, of kind `k`. -/
def Waits (rows : List SessionRow) (b : String) (i : ℕ) (k : SessionKind) : Prop :=
  ∃ r, rows[i]? = some r ∧ r.status = .queued ∧ r.branch = some b ∧ r.kind = k

/-- Row `i` has no artifact yet and is of kind `k`. -/
def Unlinked (rows : List SessionRow) (i : ℕ) (k : SessionKind) : Prop :=
  ∃ r, rows[i]? = some r ∧ r.branch = none ∧ r.kind = k

variable {rows : List SessionRow} {k : SessionKind}

theorem Unlinked.lt {i : ℕ} (h : Unlinked rows i k) : i < rows.length := by
  obtain ⟨r, hr, -⟩ := h
  exact (List.getElem?_eq_some_iff.mp hr).1

variable {status : SessionStatus} {r : SessionRow} {kind : SessionKind} {r' : SessionRow}

section Rows

variable {rows : List SessionRow} {b : String} {i j : ℕ} {k : SessionKind}

theorem runsIn_iff : r.runsIn b = true ↔
    r.status = .running ∧ r.branch = some b ∧ r.kind.blocksQueue = true := by
  simp [SessionRow.runsIn, and_assoc]

theorem waitsIn_iff : r.waitsIn b = true ↔ r.status = .queued ∧ r.branch = some b := by
  simp [SessionRow.waitsIn]

theorem mem_runningBranchSessionKinds {kind : BranchSessionScheduleKind} :
    kind ∈ runningBranchSessionKinds rows b ↔ ∃ i k, Runs rows b i k ∧ k.scheduleKind = kind := by
  simp only [runningBranchSessionKinds, List.mem_toFinset, List.mem_map, List.mem_filter,
    runsIn_iff]
  constructor
  · rintro ⟨r, ⟨hmem, hstatus, hbranch, hblocks⟩, rfl⟩
    obtain ⟨i, hi⟩ := List.mem_iff_getElem?.mp hmem
    exact ⟨i, r.kind, ⟨r, hi, hstatus, hbranch, rfl, hblocks⟩, rfl⟩
  · rintro ⟨i, k, ⟨r, hi, hstatus, hbranch, rfl, hblocks⟩, rfl⟩
    exact ⟨r, ⟨List.mem_of_getElem? hi, hstatus, hbranch, hblocks⟩, rfl⟩

theorem mem_getQueuedSessionsForBranch :
    i ∈ getQueuedSessionsForBranch rows b ↔ ∃ k, Waits rows b i k := by
  simp only [getQueuedSessionsForBranch, List.mem_filter, List.mem_range, Option.any_eq_true,
    waitsIn_iff]
  constructor
  · rintro ⟨-, r, hr, hstatus, hbranch⟩
    exact ⟨r.kind, r, hr, hstatus, hbranch, rfl⟩
  · rintro ⟨k, r, hr, hstatus, hbranch, -⟩
    exact ⟨(List.getElem?_eq_some_iff.mp hr).1, r, hr, hstatus, hbranch⟩

theorem getQueuedSessionsForBranch_sorted :
    (getQueuedSessionsForBranch rows b).Pairwise (· < ·) :=
  List.pairwise_lt_range.filter _

theorem hasQueuedUserBranchSession_eq_false :
    hasQueuedUserBranchSession rows b = false ↔
      ∀ i k, Waits rows b i k → k.blocksQueue = false := by
  simp only [hasQueuedUserBranchSession, List.any_eq_false, Bool.and_eq_true, waitsIn_iff,
    Bool.not_eq_true, not_and]
  constructor
  · rintro h i k ⟨r, hr, hstatus, hbranch, rfl⟩
    simpa using h r (List.mem_of_getElem? hr) ⟨hstatus, hbranch⟩
  · rintro h r hr ⟨hstatus, hbranch⟩
    obtain ⟨i, hi⟩ := List.mem_iff_getElem?.mp hr
    simp [h i r.kind ⟨r, hi, hstatus, hbranch, rfl⟩]

/-! ### Inserting a row -/

theorem getElem?_insertRow (h : rows[i]? = some r) (r' : SessionRow) : (rows ++ [r'])[i]? = some r := by
  rw [List.getElem?_append_left (List.getElem?_eq_some_iff.mp h).1, h]

theorem getElem?_insertRow_linked (hr : r.branch = none)
    (h : (rows ++ [r])[i]? = some r') (hlinked : r'.branch ≠ none) : rows[i]? = some r' := by
  rw [List.getElem?_append] at h
  split at h
  · exact h
  · rw [List.getElem?_singleton] at h
    split at h
    · obtain rfl := Option.some.inj h
      exact absurd hr hlinked
    · cases h

/-! ### Setting a status and inserting an artifact -/

theorem getElem?_setStatus (status : SessionStatus) :
    (setStatus rows i status)[j]?
      = if i = j then rows[j]?.map fun r => { r with status } else rows[j]? := by
  rw [setStatus, List.getElem?_modify]
  split <;> simp

theorem getElem?_linkArtifact :
    (linkArtifact rows i b)[j]?
      = if i = j then rows[j]?.map fun r => { r with branch := some b } else rows[j]? := by
  rw [linkArtifact, List.getElem?_modify]
  split <;> simp

/-- What a row is after its status has been set: the kind and the branch are as before. -/
theorem of_getElem?_setStatus (h : (setStatus rows i status)[j]? = some r') :
    ∃ r, rows[j]? = some r ∧ r'.branch = r.branch ∧ r'.kind = r.kind ∧
      (i = j ∧ r'.status = status ∨ i ≠ j ∧ r'.status = r.status) := by
  rw [getElem?_setStatus] at h
  split at h
  · rename_i hij
    obtain ⟨r, hr, rfl⟩ := Option.map_eq_some_iff.mp h
    exact ⟨r, hr, rfl, rfl, .inl ⟨hij, rfl⟩⟩
  · rename_i hij
    exact ⟨r', h, rfl, rfl, .inr ⟨hij, rfl⟩⟩

theorem getElem?_setStatus_of_some (i : ℕ) (status : SessionStatus) (h : rows[j]? = some r) :
    ∃ r', (setStatus rows i status)[j]? = some r' ∧ r'.branch = r.branch ∧ r'.kind = r.kind ∧
      (i = j ∧ r'.status = status ∨ i ≠ j ∧ r'.status = r.status) := by
  rw [getElem?_setStatus]
  split
  · rename_i hij
    exact ⟨{ r with status }, by rw [h]; rfl, rfl, rfl, .inl ⟨hij, rfl⟩⟩
  · rename_i hij
    exact ⟨r, h, rfl, rfl, .inr ⟨hij, rfl⟩⟩

/-- A row that runs after a status was set ran before, or it is the row that was set to run. -/
theorem runs_setStatus (h : Runs (setStatus rows i status) b j k) :
    Runs rows b j k ∨ i = j ∧ status = .running ∧ ∃ r, rows[j]? = some r ∧ r.branch = some b ∧
      r.kind = k ∧ k.blocksQueue = true := by
  obtain ⟨r', hr', hstatus, hbranch, hkind, hblocks⟩ := h
  obtain ⟨r, hr, hb, hk, ⟨hij, hs⟩ | ⟨-, hs⟩⟩ := of_getElem?_setStatus hr'
  · exact .inr ⟨hij, hs.symm.trans hstatus, r, hr, hb ▸ hbranch, hk ▸ hkind, hblocks⟩
  · exact .inl ⟨r, hr, hs ▸ hstatus, hb ▸ hbranch, hk ▸ hkind, hblocks⟩

/-- A row that is queued after a status other than `queued` was set was queued before, and it is not
the row that was set. -/
theorem waits_setStatus (hne : status ≠ .queued)
    (h : Waits (setStatus rows i status) b j k) : Waits rows b j k ∧ i ≠ j := by
  obtain ⟨r', hr', hstatus, hbranch, hkind⟩ := h
  obtain ⟨r, hr, hb, hk, ⟨-, hs⟩ | ⟨hij, hs⟩⟩ := of_getElem?_setStatus hr'
  · exact absurd (hs.symm.trans hstatus) hne
  · exact ⟨⟨r, hr, hs ▸ hstatus, hb ▸ hbranch, hk ▸ hkind⟩, hij⟩

/-- A row after an artifact was inserted: as before, or the row that was linked. -/
theorem of_getElem?_linkArtifact (h : (linkArtifact rows i b)[j]? = some r') : i ≠ j ∧ rows[j]? = some r' ∨
      i = j ∧ ∃ r, rows[j]? = some r ∧ r'.branch = some b ∧ r'.kind = r.kind ∧
        r'.status = r.status := by
  rw [getElem?_linkArtifact] at h
  split at h
  · rename_i hij
    obtain ⟨r, hr, rfl⟩ := Option.map_eq_some_iff.mp h
    exact .inr ⟨hij, r, hr, rfl, rfl, rfl⟩
  · rename_i hij
    exact .inl ⟨hij, h⟩

theorem runs_linkArtifact {b' : String} (h : Runs (linkArtifact rows i b') b j k) :
    Runs rows b j k ∨ i = j ∧ b = b' ∧ ∃ r, rows[j]? = some r ∧ r.status = .running ∧ r.kind = k := by
  obtain ⟨r', hr', hstatus, hbranch, hkind, hblocks⟩ := h
  rcases of_getElem?_linkArtifact hr' with ⟨-, hr⟩ | ⟨hij, r, hr, hb, hk, hs⟩
  · exact .inl ⟨r', hr, hstatus, hbranch, hkind, hblocks⟩
  · refine .inr ⟨hij, ?_, r, hr, hs ▸ hstatus, hk ▸ hkind⟩
    exact Option.some.inj (hbranch.symm.trans hb)

theorem waits_linkArtifact {b' : String} (h : Waits (linkArtifact rows i b') b j k) :
    Waits rows b j k ∨ i = j ∧ b = b' := by
  obtain ⟨r', hr', hstatus, hbranch, hkind⟩ := h
  rcases of_getElem?_linkArtifact hr' with ⟨-, hr⟩ | ⟨hij, r, hr, hb, hk, hs⟩
  · exact .inl ⟨r', hr, hstatus, hbranch, hkind⟩
  · exact .inr ⟨hij, Option.some.inj (hbranch.symm.trans hb)⟩

theorem runs_insertRow (h : Runs (rows ++ [⟨status, kind, none⟩]) b j k) : Runs rows b j k := by
  obtain ⟨r, hr, hstatus, hbranch, hkind, hblocks⟩ := h
  exact ⟨r, getElem?_insertRow_linked rfl hr (by simp [hbranch]), hstatus, hbranch, hkind, hblocks⟩

theorem waits_insertRow (h : Waits (rows ++ [⟨status, kind, none⟩]) b j k) : Waits rows b j k := by
  obtain ⟨r, hr, hstatus, hbranch, hkind⟩ := h
  exact ⟨r, getElem?_insertRow_linked rfl hr (by simp [hbranch]), hstatus, hbranch, hkind⟩

end Rows

/-! ## Compatible kinds -/

/-- Two kinds of sessions that must not run together on a branch. -/
def Incompatible (k k' : BranchSessionScheduleKind) : Prop :=
  k.isExclusive = true ∨ k'.isExclusive = true ∨ k = k' ∧ k.allowsParallelInstances = false

theorem Incompatible.symm {k k' : BranchSessionScheduleKind} (h : Incompatible k k') :
    Incompatible k' k := by
  rcases h with h | h | ⟨rfl, h⟩
  · exact .inr (.inl h)
  · exact .inl h
  · exact .inr (.inr ⟨rfl, h⟩)

/-- `can_start_with_active_branch_sessions` admits exactly what is compatible with all active
kinds. -/
theorem canStartWithActiveBranchSessions_iff (k : BranchSessionScheduleKind)
    (active : Finset BranchSessionScheduleKind) :
    canStartWithActiveBranchSessions k active = true ↔ ∀ k' ∈ active, ¬Incompatible k k' := by
  unfold canStartWithActiveBranchSessions
  split
  · rename_i hk
    simp [Incompatible, hk, Finset.eq_empty_iff_forall_notMem]
  · rename_i hk
    split
    · rename_i hex
      obtain ⟨k', hk', hex⟩ := hex
      simp only [Bool.false_eq_true, false_iff, not_forall]
      exact ⟨k', hk', not_not.mpr (.inr (.inl hex))⟩
    · rename_i hex
      simp only [Bool.or_eq_true, decide_eq_true_eq]
      constructor
      · rintro hstart k' hk' (hbad | hbad | ⟨rfl, hbad⟩)
        · exact hk hbad
        · exact hex ⟨k', hk', hbad⟩
        · rcases hstart with hstart | hstart
          · rw [hbad] at hstart
            cases hstart
          · exact hstart hk'
      · intro h
        by_cases hpar : k.allowsParallelInstances = true
        · exact .inl hpar
        · refine .inr fun hmem => h k hmem (.inr (.inr ⟨rfl, by simpa using hpar⟩))

/-! ## The invariant -/

/-- The row a call has inserted and is to link to its branch. -/
def Call.pendingRow : Call → Option ℕ
  | launch _ _ _ (.enqueued row) | launch _ _ _ (.launched row) | pipeline _ (.inserted row) =>
    some row
  | _ => none

/-- The branch and the session of a start call that has passed its checks and is to make the session
run. -/
def Call.passed : Call → Option (String × SessionKind)
  | launch b type _ .launch | launch b type _ (.launched _) => some (b, type.sessionKind)
  | _ => none

/-- A session of kind `k` clashes with no running session of the branch. -/
def Clear (clash : BranchSessionScheduleKind → BranchSessionScheduleKind → Prop)
    (rows : List SessionRow) (b : String) (k : SessionKind) : Prop :=
  ∀ i k', Runs rows b i k' → ¬clash k.scheduleKind k'.scheduleKind

/-- What is known about the rows at the places where a call is about to insert a running row or an
artifact. -/
def Prepared (clash : BranchSessionScheduleKind → BranchSessionScheduleKind → Prop)
    (rows : List SessionRow) : Call → Prop
  | .launch _ type _ (.enqueued row) =>
    ∃ r, rows[row]? = some r ∧ r.branch = none ∧ r.kind = type.sessionKind ∧ r.status ≠ .running
  | .launch b type _ .launch => Clear clash rows b type.sessionKind
  | .launch b type _ (.launched row) =>
    Unlinked rows row type.sessionKind ∧ Clear clash rows b type.sessionKind
  | .pipeline _ (.inserted row) => Unlinked rows row .commitPipeline
  | _ => True

/-- Two running sessions of one branch do not clash. -/
def Safe (clash : BranchSessionScheduleKind → BranchSessionScheduleKind → Prop)
    (rows : List SessionRow) : Prop :=
  ∀ b i j k k', i ≠ j → Runs rows b i k → Runs rows b j k' → ¬clash k.scheduleKind k'.scheduleKind

/-- The invariant of all launches. -/
structure LaunchInv (clash : BranchSessionScheduleKind → BranchSessionScheduleKind → Prop)
    (s : LaunchState) : Prop where
  lock : ∀ b c, s.lock b = some c ↔ (s.calls c).holds = some b
  pending : ∀ c d row, (s.calls c).pendingRow = some row → (s.calls d).pendingRow = some row → c = d
  prepared : ∀ c, Prepared clash s.rows (s.calls c)
  safe : Safe clash s.rows

variable {call : Call} {b : String} {lock : String → Option ℕ} {rows' : List SessionRow}

section Invariant

variable {clash : BranchSessionScheduleKind → BranchSessionScheduleKind → Prop}

theorem Prepared.unlinked (h : Prepared clash rows call)
    {row : ℕ} (hrow : call.pendingRow = some row) : ∃ k, Unlinked rows row k := by
  unfold Call.pendingRow at hrow
  split at hrow
  · obtain rfl := Option.some.inj hrow
    obtain ⟨r, hr, hbranch, hkind, -⟩ := h
    exact ⟨_, r, hr, hbranch, hkind⟩
  · obtain rfl := Option.some.inj hrow
    exact ⟨_, h.1⟩
  · obtain rfl := Option.some.inj hrow
    exact ⟨_, h⟩
  · cases hrow

theorem holds_of_passed (h : call.passed = some (b, k)) : call.holds = some b := by
  unfold Call.passed at h
  split at h
  · obtain ⟨rfl, -⟩ := Prod.mk.inj (Option.some.inj h)
    rfl
  · obtain ⟨rfl, -⟩ := Prod.mk.inj (Option.some.inj h)
    rfl
  · cases h

/-- A change of the rows keeps what a call knows when it keeps the row the call has inserted and,
once the call has passed its checks, makes no session of its branch run that clashes. -/
theorem Prepared.mono (h : Prepared clash rows call)
    (hruns : ∀ b k₀ i k, call.passed = some (b, k₀) → Runs rows' b i k →
      Runs rows b i k ∨ ¬clash k₀.scheduleKind k.scheduleKind)
    (hrow : ∀ row r, call.pendingRow = some row → rows[row]? = some r → r.branch = none →
      ∃ r', rows'[row]? = some r' ∧ r'.branch = none ∧ r'.kind = r.kind ∧
        (r'.status = .running → r.status = .running)) :
    Prepared clash rows' call := by
  have hclear : ∀ b k₀, call.passed = some (b, k₀) → Clear clash rows b k₀ →
      Clear clash rows' b k₀ := by
    intro b k₀ hb hc i k hr
    rcases hruns b k₀ i k hb hr with hold | hok
    · exact hc i k hold
    · exact hok
  have hunlinked : ∀ row k, call.pendingRow = some row → Unlinked rows row k →
      Unlinked rows' row k := by
    rintro row k hp ⟨r, hr, hbranch, hkind⟩
    obtain ⟨r', hr', hb', hk', -⟩ := hrow row r hp hr hbranch
    exact ⟨r', hr', hb', hk'.trans hkind⟩
  unfold Prepared at h ⊢
  split at h
  · obtain ⟨r, hr, hbranch, hkind, hstatus⟩ := h
    obtain ⟨r', hr', hb', hk', hs'⟩ := hrow _ r rfl hr hbranch
    exact ⟨r', hr', hb', hk'.trans hkind, fun hrun => hstatus (hs' hrun)⟩
  · exact hclear _ _ rfl h
  · exact ⟨hunlinked _ _ rfl h.1, hclear _ _ rfl h.2⟩
  · exact hunlinked _ _ rfl h
  · trivial

theorem Safe.mono (h : Safe clash rows)
    (hruns : ∀ b i k, Runs rows' b i k → Runs rows b i k) : Safe clash rows' :=
  fun b i j k k' hij hi hj => h b i j k k' hij (hruns b i k hi) (hruns b j k' hj)

/-- One more running session keeps the branch safe when it clashes with none. -/
theorem Safe.add (hsymm : ∀ k k', clash k k' → clash k' k)
    (h : Safe clash rows) {i : ℕ} (hclear : Clear clash rows b k)
    (hruns : ∀ b' j k', Runs rows' b' j k' → Runs rows b' j k' ∨ i = j ∧ b' = b ∧ k' = k) :
    Safe clash rows' := by
  intro b' j j' k₁ k₂ hne h₁ h₂
  rcases hruns b' j k₁ h₁ with hold₁ | ⟨rfl, rfl, rfl⟩
  · rcases hruns b' j' k₂ h₂ with hold₂ | ⟨rfl, rfl, rfl⟩
    · exact h b' j j' k₁ k₂ hne hold₁ hold₂
    · exact fun hclash => hclear j k₁ hold₁ (hsymm _ _ hclash)
  · rcases hruns b' j' k₂ h₂ with hold₂ | ⟨hij, -, -⟩
    · exact hclear j' k₂ hold₂
    · exact absurd hij hne

namespace LaunchInv

/-- Before any call, the invariant only asks for rows that do not clash. -/
theorem init (hrows : Safe clash rows) : LaunchInv clash (.init rows) where
  lock b c := by simp [LaunchState.init, Call.holds]
  pending c d row hc := by cases hc
  prepared _ := trivial
  safe := hrows

variable {s : LaunchState} {c : ℕ}

/-- A call moves on, and the rows and the lock change with it. -/
theorem update (h : LaunchInv clash s)
    (hlock : ∀ b d, lock b = some d ↔ (Function.update s.calls c call d).holds = some b)
    (hpending : ∀ row, call.pendingRow = some row → ∀ d ≠ c, (s.calls d).pendingRow ≠ some row)
    (hself : Prepared clash rows call) (hother : ∀ d ≠ c, Prepared clash rows (s.calls d))
    (hsafe : Safe clash rows) :
    LaunchInv clash ⟨rows, Function.update s.calls c call, lock⟩ := by
  refine ⟨hlock, ?_, ?_, hsafe⟩
  · intro d d' row hd hd'
    by_cases hdc : d = c
    · by_cases hdc' : d' = c
      · rw [hdc, hdc']
      · subst hdc
        simp only [Function.update_self, Function.update_of_ne hdc'] at hd hd'
        exact absurd hd' (hpending row hd d' hdc')
    · by_cases hdc' : d' = c
      · subst hdc'
        simp only [Function.update_self, Function.update_of_ne hdc] at hd hd'
        exact absurd hd (hpending row hd' d hdc)
      · simp only [Function.update_of_ne hdc, Function.update_of_ne hdc'] at hd hd'
        exact h.pending d d' row hd hd'
  · intro d
    by_cases hdc : d = c
    · subst hdc
      simpa using hself
    · simpa [hdc] using hother d hdc

/-- The lock keeps its holder when the moving call holds what it held. -/
theorem lock_same (h : LaunchInv clash s) (hholds : call.holds = (s.calls c).holds) (b : String) (d : ℕ) :
    s.lock b = some d ↔ (Function.update s.calls c call d).holds = some b := by
  rw [h.lock b d]
  by_cases hdc : d = c
  · subst hdc
    rw [Function.update_self, hholds]
  · rw [Function.update_of_ne hdc]

theorem lock_acquire (h : LaunchInv clash s) (hfree : s.lock b = none)
    (hcall : (s.calls c).holds = none) (hholds : call.holds = some b) (b' : String) (d : ℕ) :
    Function.update s.lock b (some c) b' = some d ↔
      (Function.update s.calls c call d).holds = some b' := by
  by_cases hdc : d = c
  · subst hdc
    rw [Function.update_self, hholds]
    by_cases hb : b' = b
    · simp [hb]
    · rw [Function.update_of_ne hb, h.lock, hcall]
      simp [Ne.symm hb]
  · rw [Function.update_of_ne hdc, ← h.lock]
    by_cases hb : b' = b
    · subst hb
      simp [hfree, Ne.symm hdc]
    · rw [Function.update_of_ne hb]

theorem unlock_lock (s : LaunchState) (c : ℕ) (b : String) :
    (s.unlock c).lock b = if (s.calls c).holds = some b then none else s.lock b := by
  unfold LaunchState.unlock
  split
  · rename_i b' hb'
    by_cases hb : b = b'
    · simp [hb, hb']
    · rw [hb']
      simp [hb, Ne.symm hb]
  · rename_i hnone
    simp [hnone]

@[simp]
theorem unlock_rows (s : LaunchState) (c : ℕ) : (s.unlock c).rows = s.rows := by
  unfold LaunchState.unlock
  split <;> rfl

@[simp]
theorem unlock_calls (s : LaunchState) (c : ℕ) : (s.unlock c).calls = s.calls := by
  unfold LaunchState.unlock
  split <;> rfl

theorem lock_release (h : LaunchInv clash s) (hholds : call.holds = none) (b : String) (d : ℕ) :
    (s.unlock c).lock b = some d ↔ (Function.update s.calls c call d).holds = some b := by
  rw [unlock_lock]
  by_cases hdc : d = c
  · subst hdc
    rw [Function.update_self, hholds]
    split
    · simp
    · rename_i hne
      rw [h.lock]
      simp [hne]
  · rw [Function.update_of_ne hdc, ← h.lock b d]
    split
    · rename_i hc
      have hlock : s.lock b = some c := (h.lock b c).mpr hc
      simp [hlock, Ne.symm hdc]
    · rfl

/-- A call moves on without a change of the rows. -/
theorem goto (h : LaunchInv clash s)
    (hlock : ∀ b d, lock b = some d ↔ (Function.update s.calls c call d).holds = some b)
    (hpending : call.pendingRow = none) (hself : Prepared clash s.rows call) :
    LaunchInv clash ⟨s.rows, Function.update s.calls c call, lock⟩ :=
  h.update hlock (fun row hrow => by rw [hpending] at hrow; cases hrow) hself
    (fun d _ => h.prepared d) h.safe

/-- Two calls that have passed their checks on one branch are the same call. -/
theorem passed_unique (h : LaunchInv clash s) {d : ℕ}
    (hc : (s.calls c).holds = some b) (hd : (s.calls d).passed = some (b, k)) : d = c := by
  have hlock : s.lock b = some c := (h.lock b c).mpr hc
  rw [(h.lock b d).mpr (holds_of_passed hd), Option.some.injEq] at hlock
  exact hlock

/-- A row is inserted without its artifact. -/
theorem insertRow (h : LaunchInv clash s)
    (hholds : call.holds = (s.calls c).holds) (hpending : call.pendingRow = some s.rows.length)
    (hself : Prepared clash (s.rows ++ [⟨status, kind, none⟩]) call) :
    LaunchInv clash ((s.insertRow status kind).goto c call) := by
  refine h.update (h.lock_same hholds) ?_ hself ?_ (h.safe.mono fun b i k => runs_insertRow)
  · intro row hrow d _ hd
    rw [hpending, Option.some.injEq] at hrow
    obtain ⟨k, hk⟩ := (h.prepared d).unlinked hd
    exact Nat.lt_irrefl _ (hrow ▸ hk.lt)
  · intro d _
    refine (h.prepared d).mono (fun b k₀ i k _ hi => .inl (runs_insertRow hi)) ?_
    intro row r _ hr hbranch
    exact ⟨r, getElem?_insertRow hr _, hbranch, rfl, id⟩

/-- The artifact of a row is inserted. If the row is running, it must clash neither with a running
session nor with one that another call is about to make run. -/
theorem link (h : LaunchInv clash s) (hsymm : ∀ k k', clash k k' → clash k' k) {row : ℕ}
    (hlock : ∀ b d, lock b = some d ↔ (Function.update s.calls c .idle d).holds = some b)
    (hrow : (s.calls c).pendingRow = some row) (hr : s.rows[row]? = some r)
    (hrun : r.status = .running →
      Clear clash s.rows b r.kind ∧ ∀ d ≠ c, ∀ k₀, (s.calls d).passed = some (b, k₀) →
        ¬clash k₀.scheduleKind r.kind.scheduleKind) :
    LaunchInv clash ⟨linkArtifact s.rows row b, Function.update s.calls c .idle, lock⟩ := by
  have hruns : ∀ b' j k', Runs (linkArtifact s.rows row b) b' j k' →
      Runs s.rows b' j k' ∨ (row = j ∧ b' = b ∧ k' = r.kind) ∧ r.status = .running := by
    intro b' j k' hj
    rcases runs_linkArtifact hj with hold | ⟨rfl, rfl, r', hr', hstatus, hkind⟩
    · exact .inl hold
    · obtain rfl := Option.some.inj (hr.symm.trans hr')
      exact .inr ⟨⟨rfl, rfl, hkind.symm⟩, hstatus⟩
  refine h.update hlock (fun _ hp => by cases hp) trivial ?_ ?_
  · intro d hdc
    refine (h.prepared d).mono ?_ ?_
    · intro b' k₀ i k hpassed hi
      rcases hruns b' i k hi with hold | ⟨⟨-, rfl, rfl⟩, hstatus⟩
      · exact .inl hold
      · exact .inr ((hrun hstatus).2 d hdc k₀ hpassed)
    · intro row' r' hrow' hr' hbranch
      -- the linked row belongs to the moving call alone
      have hne : row ≠ row' := by
        rintro rfl
        exact hdc (h.pending d c row hrow' hrow)
      exact ⟨r', by rw [getElem?_linkArtifact, if_neg hne]; exact hr', hbranch, rfl, id⟩
  · by_cases hstatus : r.status = .running
    · refine h.safe.add hsymm (hrun hstatus).1 (i := row) ?_
      exact fun b' j k' hj => (hruns b' j k' hj).imp_right And.left
    · refine h.safe.mono fun b' i k hi => ?_
      rcases hruns b' i k hi with hold | ⟨-, hrunning⟩
      · exact hold
      · exact absurd hrunning hstatus

/-- A session of a branch is made to run. Unless it is an automatic review, it must clash neither with
a running session nor with one that a call is about to make run. -/
theorem setRunning (h : LaunchInv clash s) (hsymm : ∀ k k', clash k k' → clash k' k) {id : ℕ}
    (hr : s.rows[id]? = some r) (hbranch : r.branch = some b)
    (hrun : r.kind.blocksQueue = true →
      Clear clash s.rows b r.kind ∧ ∀ d k₀, (s.calls d).passed = some (b, k₀) →
        ¬clash k₀.scheduleKind r.kind.scheduleKind) :
    LaunchInv clash { s with rows := setStatus s.rows id .running } := by
  have hruns : ∀ b' j k', Runs (setStatus s.rows id .running) b' j k' →
      Runs s.rows b' j k' ∨ (id = j ∧ b' = b ∧ k' = r.kind) ∧ r.kind.blocksQueue = true := by
    intro b' j k' hj
    rcases runs_setStatus hj with hold | ⟨rfl, -, r', hr', hb', hkind, hblocks⟩
    · exact .inl hold
    · obtain rfl := Option.some.inj (hr.symm.trans hr')
      exact .inr ⟨⟨rfl, Option.some.inj (hb'.symm.trans hbranch), hkind.symm⟩, hkind ▸ hblocks⟩
  refine ⟨h.lock, h.pending, ?_, ?_⟩
  · intro d
    refine (h.prepared d).mono ?_ ?_
    · intro b' k₀ i k hpassed hi
      rcases hruns b' i k hi with hold | ⟨⟨-, rfl, rfl⟩, hblocks⟩
      · exact .inl hold
      · exact .inr ((hrun hblocks).2 d k₀ hpassed)
    · intro row r' _ hr' hnone
      -- a pending row has no branch yet, so it is not the one that is made to run
      have hne : id ≠ row := by
        rintro rfl
        obtain rfl := Option.some.inj (hr.symm.trans hr')
        rw [hbranch] at hnone
        cases hnone
      exact ⟨r', by rw [getElem?_setStatus, if_neg hne]; exact hr', hnone, rfl, fun hs => hs⟩
  · by_cases hblocks : r.kind.blocksQueue = true
    · refine h.safe.add hsymm (hrun hblocks).1 (i := id) ?_
      exact fun b' j k' hj => (hruns b' j k' hj).imp_right And.left
    · refine h.safe.mono fun b' i k hi => ?_
      rcases hruns b' i k hi with hold | ⟨-, htrue⟩
      · exact hold
      · exact absurd htrue hblocks

/-- A session stops running, or leaves the queue without running. -/
theorem setStopped (h : LaunchInv clash s) (id : ℕ) (hstatus : status ≠ .running) :
    LaunchInv clash { s with rows := setStatus s.rows id status } := by
  have hruns : ∀ b i k, Runs (setStatus s.rows id status) b i k → Runs s.rows b i k := by
    intro b i k hi
    rcases runs_setStatus hi with hold | ⟨-, hrunning, -⟩
    · exact hold
    · exact absurd hrunning hstatus
  refine ⟨h.lock, h.pending, ?_, h.safe.mono hruns⟩
  intro d
  refine (h.prepared d).mono (fun b k₀ i k _ hi => .inl (hruns b i k hi)) ?_
  intro row r _ hr hbranch
  obtain ⟨r', hr', hb', hk', hs'⟩ := getElem?_setStatus_of_some id status hr
  refine ⟨r', hr', hb'.trans hbranch, hk', fun hrunning => ?_⟩
  rcases hs' with ⟨-, hs'⟩ | ⟨-, hs'⟩
  · exact absurd (hs'.symm.trans hrunning) hstatus
  · exact hs' ▸ hrunning

/-- Every step of a call under the launch lock keeps the invariant. -/
theorem advanceLaunch (h : LaunchInv clash s) (hsymm : ∀ k k', clash k k' → clash k' k)
    (hcan : ∀ k k' active, canStartWithActiveBranchSessions k active = true → k' ∈ active →
      ¬clash k k')
    {waits : Bool} {type : BranchSessionType} {queueOnly : Bool} {pc : LaunchPc}
    (hcall : s.calls c = .launch b type queueOnly pc) {t : LaunchState}
    (hstep : s.advanceLaunch c waits b type queueOnly pc = some t) : LaunchInv clash t := by
  have hprep := h.prepared c
  rw [hcall] at hprep
  cases pc with
  | begin second =>
    simp only [LaunchState.advanceLaunch] at hstep
    split at hstep
    · rename_i hfree
      obtain rfl := Option.some.inj hstep
      have hnone : (s.calls c).holds = none := by rw [hcall]; rfl
      cases queueOnly
      · exact h.goto (h.lock_acquire hfree hnone rfl) rfl trivial
      · exact h.goto (h.lock_acquire hfree hnone rfl) rfl trivial
    · cases hstep
  | locked second =>
    obtain rfl := Option.some.inj hstep
    cases hq : (waits || hasQueuedUserBranchSession s.rows b)
    · exact h.goto (h.lock_same (by rw [hcall]; rfl)) rfl trivial
    · exact h.goto (h.lock_same (by rw [hcall]; rfl)) rfl trivial
  | noQueue second =>
    simp only [LaunchState.advanceLaunch] at hstep
    split at hstep
    · rename_i hstart
      split at hstep
      · -- the checks have passed, under the lock: nothing that runs clashes
        obtain rfl := Option.some.inj hstep
        refine h.goto (h.lock_same (by rw [hcall]; rfl)) rfl ?_
        intro i k' hrun
        exact hcan _ _ _ hstart (mem_runningBranchSessionKinds.mpr ⟨i, k', hrun, rfl⟩)
      · obtain rfl := Option.some.inj hstep
        simp only [LaunchState.goto, unlock_rows, unlock_calls]
        exact h.goto (h.lock_release rfl) rfl trivial
    · obtain rfl := Option.some.inj hstep
      exact h.goto (h.lock_same (by rw [hcall]; rfl)) rfl trivial
  | enqueue =>
    obtain rfl := Option.some.inj hstep
    refine h.insertRow (by rw [hcall]; rfl) rfl ?_
    exact ⟨_, List.getElem?_concat_length, rfl, rfl, by simp⟩
  | launch =>
    obtain rfl := Option.some.inj hstep
    refine h.insertRow (by rw [hcall]; rfl) rfl ⟨?_, ?_⟩
    · exact ⟨_, List.getElem?_concat_length, rfl, rfl⟩
    · exact fun i k hi => hprep i k (runs_insertRow hi)
  | enqueued row =>
    obtain rfl := Option.some.inj hstep
    obtain ⟨r, hr, -, -, hstatus⟩ := hprep
    simp only [LaunchState.goto, unlock_calls]
    exact h.link hsymm (h.lock_release rfl) (by rw [hcall]; rfl) hr
      (fun hrun => absurd hrun hstatus)
  | launched row =>
    obtain rfl := Option.some.inj hstep
    obtain ⟨⟨r, hr, -, hkind⟩, hclear⟩ := hprep
    simp only [LaunchState.goto, unlock_calls]
    refine h.link hsymm (h.lock_release rfl) (by rw [hcall]; rfl) hr (fun _ => ⟨hkind ▸ hclear, ?_⟩)
    -- no other call of the branch has passed its checks, because this one holds the lock
    intro d hdc k₀ hpassed
    exact absurd (h.passed_unique (by rw [hcall]; rfl) hpassed) hdc

end LaunchInv

end Invariant

end Builderbot.Staged
