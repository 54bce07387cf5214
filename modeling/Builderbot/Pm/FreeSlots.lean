import Builderbot.Pm.World

/-!
# Free slots

A slot that a project gives back has no owner, but its worktree still holds the branch that the project had.
The first free slot is taken for any branch, and a plain `git checkout` fails for a branch that another
worktree holds. A branch that is nowhere yet is made from the default one, which a bare clone may not have on
its remote. `run_acquireSlot_iff` says exactly when a free slot can be used, if nothing else goes wrong.
-/

namespace Builderbot.Pm

open Program

open Git (Text)

/-- The commands run, and `git` has no other reason to fail. -/
def Calm (o : Outcome) : Prop := o.fails = false ∧ o.refused = false

theorem not_calm_fails : ¬ ∃ o, Calm o ∧ o.fails = true := by
  rintro ⟨o, ho, hfails⟩
  rw [ho.1] at hfails
  cases hfails

theorem not_calm_refused : ¬ ∃ o, Calm o ∧ o.refused = true := by
  rintro ⟨o, ho, hrefused⟩
  rw [ho.2] at hrefused
  cases hrefused

namespace World

variable {w : World} {path : Path} {branch : Text}

/-- The branch is in the repository or on its remote, or can be made from the default branch that is found. -/
def hasStart (w : World) (repo : Path) (branch : Text) : Bool :=
  w.hasBranch repo branch || (w.git repo).remote.contains branch ||
    (w.git repo).remote.contains (w.git repo).resolveDefaultBranch

/-- The branch is there or can be made, and the slot has no worktree yet, or one that may have the branch: no other
one of its repository holds it. -/
def canTake (w : World) (bare path : Path) (branch : Text) : Bool :=
  match w.worktrees.lookup path with
  | some wt => !w.heldElsewhere wt.repo path branch && w.hasStart wt.repo branch
  | none => w.hasStart (w.repoOf bare) branch

/-- A branch that is held is there. -/
theorem hasBranch_of_heldElsewhere {repo : Path} (h : w.heldElsewhere repo path branch = true) :
    w.hasBranch repo branch = true := by
  rw [heldElsewhere, Bool.or_eq_true] at h
  rw [hasBranch, Bool.or_eq_true, Bool.or_eq_true]
  rcases h with hmain | hany
  · exact .inl (.inr hmain)
  · rw [List.any_eq_true] at hany
    obtain ⟨e, he, hheld⟩ := hany
    rw [Bool.and_eq_true, Bool.and_eq_true] at hheld
    exact .inr (List.any_eq_true.mpr ⟨e, he, Bool.and_eq_true_iff.mpr ⟨hheld.1.2, hheld.2⟩⟩)

theorem repoOf_eq {wt : WorktreeDir} (h : w.worktrees.lookup path = some wt) : w.repoOf path = wt.repo := by
  rw [repoOf, h]
  rfl

/-- A new branch in a worktree is held nowhere else, and its start is on the remote. -/
theorem checkoutNew_eq_some {wt : WorktreeDir} (hpath : w.worktrees.lookup path = some wt) {start : Text} {w' : World}
    (h : w.checkoutNew path branch start = some w') :
    w.heldElsewhere wt.repo path branch = false ∧ (w.git wt.repo).remote.contains start = true := by
  rw [checkoutNew, hpath, Option.bind_some] at h
  split at h
  · cases h
  case isFalse habsent =>
    split at h
    case isTrue hstart =>
      exact ⟨Bool.eq_false_iff.mpr fun hheld => habsent (hasBranch_of_heldElsewhere hheld), hstart⟩
    case isFalse => cases h

theorem hasStart_iff {repo : Path} : w.hasStart repo branch = true ↔
    w.hasBranch repo branch = true ∨ (w.git repo).remote.contains branch = true ∨
      (w.git repo).remote.contains (w.git repo).resolveDefaultBranch = true := by
  rw [hasStart, Bool.or_eq_true, Bool.or_eq_true, or_assoc]

/-- A branch that is checked out is not held elsewhere, and is there or on the remote. -/
theorem checkout_eq_some {wt : WorktreeDir} (hpath : w.worktrees.lookup path = some wt) {w' : World}
    (h : w.checkout path branch = some w') : w.heldElsewhere wt.repo path branch = false ∧ w.hasStart wt.repo branch = true := by
  rw [checkout, hpath, Option.bind_some] at h
  split at h
  · cases h
  case isFalse hfree =>
    refine ⟨Bool.eq_false_iff.mpr hfree, hasStart_iff.mpr ?_⟩
    split at h
    case isTrue hhas => exact .inl hhas
    split at h
    case isTrue hremote => exact .inr (.inl hremote)
    case isFalse => cases h

/-- A branch that cannot be checked out is held elsewhere, or new and not on the remote. -/
theorem checkout_eq_none {wt : WorktreeDir} (hpath : w.worktrees.lookup path = some wt)
    (h : w.checkout path branch = none) :
    w.heldElsewhere wt.repo path branch = true ∨
      w.hasBranch wt.repo branch = false ∧ (w.git wt.repo).remote.contains branch = false := by
  rw [checkout, hpath, Option.bind_some] at h
  split at h
  case isTrue hheld => exact .inl hheld
  split at h
  · cases h
  case isFalse habsent =>
    split at h
    · cases h
    case isFalse hremote => exact .inr ⟨Bool.eq_false_iff.mpr habsent, Bool.eq_false_iff.mpr hremote⟩

/-- The branch that a new one starts from. -/
theorem defaultBranch_reply (o : Outcome) (ho : Calm o) (dir : Path) :
    Option.getD (w.handle (.defaultBranch dir) o).1 mainBranch = (w.git (w.repoOf dir)).resolveDefaultBranch := by
  show Option.getD (if o.fails then none else some (w.git (w.repoOf dir)).resolveDefaultBranch) mainBranch = _
  rw [ho.1]
  rfl

/-- The worktree of a slot is switched if its branch is nowhere else, and is there or can be made. -/
theorem checkout_ends {wt : WorktreeDir} (hpath : w.worktrees.lookup path = some wt) :
    Ends (fun _ => Calm)
      (fun r _ => r = .ok () ↔ w.heldElsewhere wt.repo path branch = false ∧ w.hasStart wt.repo branch = true)
      (Pm.checkout path branch) w := by
  have hfails : (∃ o, Calm o ∧ o.fails = true) → (Except.error PmError.gitNotRun = Except.ok () ↔
      w.heldElsewhere wt.repo path branch = false ∧ w.hasStart wt.repo branch = true) :=
    fun h => absurd h not_calm_fails
  rw [Pm.checkout]
  refine ends_look_bind (fun _ => rfl) fun o _ => ends_git_bind (fun _ => rfl) hfails (fun hno => ?_) fun w' hw' => ?_
  · have hcheckout := checkout_eq_none hpath (hno.resolve_left not_calm_refused)
    refine ends_git_bind (fun _ => rfl) hfails (fun _ => ?_) fun w' hw' => ?_
    · refine ends_look_bind (fun _ => rfl) fun o ho => ?_
      rw [defaultBranch_reply o ho]
      refine ends_git_bind (fun _ => rfl) hfails (fun hno => ?_) fun w' hw' => ?_
      · -- not even a new branch can be made from the default one
        have hnew := hno.resolve_left not_calm_refused
        refine ⟨fun h => (by cases h), ?_⟩
        rintro ⟨hfree, hstart⟩
        obtain ⟨habsent, hremote⟩ := hcheckout.resolve_left (by rw [hfree]; exact Bool.false_ne_true)
        rw [hasStart, habsent, hremote, Bool.false_or, Bool.false_or] at hstart
        rw [World.checkoutNew, hpath, Option.bind_some, habsent, if_neg Bool.false_ne_true, repoOf_eq hpath,
          if_pos hstart] at hnew
        cases hnew
      · obtain ⟨hfree, hdefault⟩ := checkoutNew_eq_some hpath hw'
        rw [repoOf_eq hpath] at hdefault
        exact ⟨fun _ => ⟨hfree, hasStart_iff.mpr (.inr (.inr hdefault))⟩, fun _ => rfl⟩
    · obtain ⟨hfree, hremote⟩ := checkoutNew_eq_some hpath hw'
      exact ⟨fun _ => ⟨hfree, hasStart_iff.mpr (.inr (.inl hremote))⟩, fun _ => rfl⟩
  · exact ⟨fun _ => checkout_eq_some hpath hw', fun _ => rfl⟩

/-- A new worktree can have any branch that is there or can be made. -/
theorem addWorktree_ends {bare : Path} (hpath : w.worktrees.lookup path = none) :
    Ends (fun _ => Calm) (fun r _ => r = .ok () ↔ w.hasStart (w.repoOf bare) branch = true) (addWorktree bare path branch) w := by
  have hfails : (∃ o, Calm o ∧ o.fails = true) →
      (Except.error PmError.gitNotRun = Except.ok () ↔ w.hasStart (w.repoOf bare) branch = true) :=
    fun h => absurd h not_calm_fails
  rw [addWorktree]
  refine ends_look_bind (fun _ => rfl) fun o _ => ends_git_bind (fun _ => rfl) hfails (fun hno => ?_) fun w' hw' => ?_
  · have hadd := hno.resolve_left not_calm_refused
    rw [World.worktreeAdd, hpath, Option.isSome_none, if_neg Bool.false_ne_true] at hadd
    split at hadd
    · cases hadd
    case isFalse habsent =>
      rw [Bool.not_eq_true, Bool.or_eq_false_iff] at habsent
      -- without the branch here or on the remote the default has to be on the remote
      have hstart : w.hasStart (w.repoOf bare) branch =
          (w.git (w.repoOf bare)).remote.contains (w.git (w.repoOf bare)).resolveDefaultBranch := by
        rw [hasStart, habsent.1, habsent.2, Bool.false_or, Bool.false_or]
      refine ends_look_bind (fun _ => rfl) fun o ho => ?_
      rw [defaultBranch_reply o ho, hstart]
      have hnew : ∀ start, w.worktreeAddNew bare path branch start =
          if (w.git (w.repoOf bare)).remote.contains start then
            some ((w.addBranch (w.repoOf bare) branch).switch path ⟨w.repoOf bare, branch, []⟩ branch)
          else none := by
        intro start
        rw [World.worktreeAddNew, hpath, habsent.1]
        rfl
      refine ends_git_bind (fun _ => rfl) (fun h => absurd h not_calm_fails) (fun hno => ?_) fun w' hw' => ?_
      · have hnone := hno.resolve_left not_calm_refused
        rw [hnew] at hnone
        split at hnone
        · cases hnone
        case isFalse hdefault => exact ⟨fun h => (by cases h), fun h => absurd h hdefault⟩
      · rw [hnew] at hw'
        split at hw'
        case isTrue hdefault => exact ⟨fun _ => hdefault, fun _ => rfl⟩
        case isFalse => cases hw'
  · refine ⟨fun _ => ?_, fun _ => rfl⟩
    rw [World.worktreeAdd, hpath, Option.isSome_none, if_neg Bool.false_ne_true] at hw'
    split at hw'
    case isTrue hthere => rw [hasStart, hthere, Bool.true_or]
    case isFalse => cases hw'

/-- A slot can be prepared exactly if it can take the branch. -/
theorem prepareSlot_ends (bare : Path) :
    Ends (fun _ => Calm) (fun r _ => r = .ok () ↔ w.canTake bare path branch = true) (prepareSlot path bare branch) w := by
  rw [prepareSlot]
  refine ends_look_bind (fun _ => rfl) fun o _ => ?_
  show Ends (fun _ => Calm) _ (if (w.worktrees.lookup path).isSome = true then _ else _) w
  rcases hpath : w.worktrees.lookup path with _ | wt
  · rw [if_neg fun h => by cases h]
    refine (addWorktree_ends hpath).mono fun r _ hr => hr.trans ?_
    rw [canTake, hpath]
  · rw [if_pos Option.isSome_some]
    refine (checkout_ends hpath).mono fun r _ hr => hr.trans ?_
    rw [canTake, hpath, Bool.and_eq_true, Bool.not_eq_true']

end World

/-- The slot that `acquire_slot` takes when the project has none. -/
def State.firstFree (state : State) (repo : Text) : Option Slot := (state.slots repo).find? fun s => s.owner = none

variable {base : Path} {state : State} {repo project branch : Text} {w : World}

theorem takeSlot_ends (entry : RepoEntry) (slot : Slot) (i : ℕ) :
    Ends (fun _ => Calm) (fun r _ => (∃ state', r = .ok state') ↔ w.canTake entry.barePath slot.path branch = true)
      (takeSlot state entry repo project branch slot i true) w := by
  rw [takeSlot]
  refine ends_look_bind (fun _ => rfl) fun now _ => Wp.bind (World.prepareSlot_ends entry.barePath) ?_ ?_
  · intro _ w' hr
    exact ⟨fun _ => hr.mp rfl, fun _ => ⟨_, rfl⟩⟩
  · intro e w' hr
    constructor
    · rintro ⟨_, h⟩
      cases h
    · intro h
      cases hr.mpr h

theorem find?_zipIdx {slots : List Slot} {p : Slot → Bool} {slot : Slot} (h : slots.find? p = some slot) :
    ∃ i, (slots.zipIdx.find? fun s => p s.1) = some (slot, i) := by
  have hmap : (slots.zipIdx.map Prod.fst).find? p = some slot := by rwa [List.zipIdx_map_fst]
  rw [List.find?_map, Option.map_eq_some_iff] at hmap
  obtain ⟨⟨slot', i⟩, hfind, rfl⟩ := hmap
  exact ⟨i, hfind⟩

/-- A project without a slot gets the first free one exactly if it can take the branch. -/
theorem acquireSlot_succeeds_iff (base : Path) (w : World) {state : State} {repo project : Text} {slot : Slot}
    {entry : RepoEntry} (hentry : state.repos.lookup repo = some entry) (hslotless : state.Slotless project repo)
    (hfree : state.firstFree repo = some slot) (branch : Text) {outcome : Call → Outcome}
    (hcalm : ∀ c, Calm (outcome c)) :
    (∃ state' index, (exec World.handle outcome (acquireSlot base state repo project branch) w).1 =
        .ok (state', .acquired index)) ↔
      w.canTake entry.barePath slot.path branch = true := by
  suffices hends : Ends (fun _ => Calm) (fun r _ => (∃ state' index, r = .ok (state', .acquired index)) ↔
      w.canTake entry.barePath slot.path branch = true) (acquireSlot base state repo project branch) w from hends.exec hcalm
  rw [acquireSlot]
  refine ends_ensureSlots_bind hentry fun now => ?_
  rw [show (state.fill base repo entry.maxSlots now).repos.lookup repo = some entry from hentry]
  dsimp only
  have hslots : (state.fill base repo entry.maxSlots now).slots repo =
      fillSlots base repo entry.maxSlots now (state.slots repo) := by
    rw [State.fill, State.slots_setSlots, if_pos rfl]
  split
  -- no slot has the project as its owner
  case h_1 slot' i hfind =>
    obtain ⟨hslot, howner⟩ := getElem?_of_find? hfind
    exact absurd (State.owns_of_fill ⟨slot', hslot, of_decide_eq_true howner⟩) (hslotless i)
  case h_2 =>
    -- filling adds slots at the end, so the first free one stays the first
    have hfirst : (fillSlots base repo entry.maxSlots now (state.slots repo)).find? (fun s => s.owner = none) =
        some slot := by
      rw [fillSlots, List.find?_append, show (state.slots repo).find? _ = some slot from hfree]
      rfl
    obtain ⟨i, hi⟩ := find?_zipIdx hfirst
    rw [hslots, hi]
    refine Wp.bind (takeSlot_ends entry slot i) ?_ ?_
    · intro state' w' hr
      exact ⟨fun _ => hr.mp ⟨state', rfl⟩, fun _ => ⟨_, _, rfl⟩⟩
    · intro e w' hr
      constructor
      · rintro ⟨_, _, h⟩
        cases h
      · intro h
        obtain ⟨_, h⟩ := hr.mpr h
        cases h

theorem slotless_of_all {slots : List Slot} (hslots : state.slots repo = slots)
    (h : (slots.all fun s => s.owner ≠ some project) = true) : state.Slotless project repo := by
  rintro i ⟨slot, hslot, howner⟩
  rw [hslots] at hslot
  exact of_decide_eq_true (List.all_eq_true.mp h slot (List.mem_of_getElem? hslot)) howner

/-- After the run there are slots that no project owns, and one that asks for such a slot does not get it. -/
def FailsToAcquire (events : List WorldEvent) (project branch : Text) (error : PmError) : Prop :=
  ∃ w state, run (World.step [['w']]) {} events = some w ∧ w.file = .state state ∧
    (∃ slot ∈ state.slots ['r'], slot.owner = none) ∧ state.Slotless project ['r'] ∧
    (∀ slot ∈ state.slots ['r'], slot.owner ≠ none → slot.branch ≠ some branch) ∧
    (exec World.handle (fun _ => {}) (acquireSlot [['w']] state ['r'] project branch) w).1 = .error error

theorem failsToAcquire_of_any {events : List WorldEvent} {error : PmError}
    (h : ((run (World.step [['w']]) {} events).any fun w => w.file.load.any fun state =>
      ((state.slots ['r']).any fun s => s.owner = none) && ((state.slots ['r']).all fun s => s.owner ≠ some project) &&
      ((state.slots ['r']).all fun s => s.owner = none || s.branch ≠ some branch) &&
        match (exec World.handle (fun _ => {}) (acquireSlot [['w']] state ['r'] project branch) w).1 with
        | .error e => e = error
        | .ok _ => false) = true) : FailsToAcquire events project branch error := by
  obtain ⟨w, hrun, hw⟩ := exists_run_of_any h
  obtain ⟨state, hload, hstate⟩ := (Option.any_eq_true _ _).mp hw
  rw [Bool.and_eq_true, Bool.and_eq_true, Bool.and_eq_true] at hstate
  obtain ⟨⟨⟨hfree, hslotless⟩, hbranch⟩, herror⟩ := hstate
  refine ⟨w, state, hrun, StateFile.eq_state_of_load hload, by simpa using hfree, slotless_of_all rfl hslotless, ?_, ?_⟩
  · intro slot hslot howner
    have hother := List.all_eq_true.mp hbranch slot hslot
    simpa [howner] using hother
  · split at herror
    case h_1 e he => rw [he, of_decide_eq_true herror]
    case h_2 => cases herror

end Builderbot.Pm
