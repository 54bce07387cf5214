import Builderbot.Staged.Worktrees

/-!
# The assignment of worktrees

* `Inv`: a workdir that is linked to a branch lies under the branch's project directory, and git has the branch's stored
  name checked out there. `Rely` is what a call may rely on while others run.
* `run_assigns_once`: in a run whose steps are all timely, every call that returns a path returns one of such a workdir. A
  step is not timely if it goes on with the name of an outdated record, or assigns a workdir that was taken meanwhile.
* `run_inconsistent` shows both.
-/

namespace Builderbot.Staged.Worktrees

open Builderbot.Lib.Text Builderbot.Git Program

/-- The path is right for the branch: it lies under the project's directory, and the stored name is checked out there. -/
def Right (dir : Path) (w : World) (branchId : Text) (path : Path) : Prop :=
  ∃ row, w.branches.lookup branchId = some row ∧ projectWorktreeRootFor dir row.projectId <+: path ∧
    w.worktrees.lookup path = some (some row.branchName)

instance Right.decidable (dir : Path) (w : World) (branchId : Text) (path : Path) : Decidable (Right dir w branchId path) :=
  match hrow : w.branches.lookup branchId with
  | none => .isFalse fun ⟨_, hrow', _⟩ => by
      rw [hrow] at hrow'
      cases hrow'
  | some row =>
    decidable_of_iff (projectWorktreeRootFor dir row.projectId <+: path ∧ w.worktrees.lookup path = some (some row.branchName))
      ⟨fun h => ⟨row, hrow, h⟩, fun ⟨row', hrow', h⟩ => by
        obtain rfl := Option.some.inj (hrow.symm.trans hrow')
        exact h⟩

structure Inv (dir : Path) (w : World) : Prop where
  /-- No path of a project has two workdirs. -/
  paths : (w.workdirs.map fun wd => (wd.projectId, wd.path)).Nodup
  ids : (w.workdirs.map (·.id)).Nodup
  fresh : ∀ wd ∈ w.workdirs, wd.id < w.nextWorkdir
  linked : ∀ wd ∈ w.workdirs, ∀ branchId, wd.branchId = some branchId → Right dir w branchId wd.path

/-- What a call for a branch relies on: worktrees and workdirs stay, and nobody else touches the row of the branch or
what is linked to it. -/
structure Rely (branchId : Text) (w w' : World) : Prop where
  worktrees : ∀ path branch, w.worktrees.lookup path = some branch → w'.worktrees.lookup path = some branch
  branch : w'.branches.lookup branchId = w.branches.lookup branchId
  workdirs : ∀ wd ∈ w.workdirs, ∃ wd' ∈ w'.workdirs, wd'.id = wd.id ∧ wd'.projectId = wd.projectId ∧ wd'.path = wd.path ∧
    (wd.branchId = some branchId → wd' = wd)
  links : ∀ wd ∈ w'.workdirs, wd.branchId = some branchId → wd ∈ w.workdirs

theorem Rely.refl (branchId : Text) (w : World) : Rely branchId w w :=
  ⟨fun _ _ h => h, rfl, fun wd hwd => ⟨wd, hwd, rfl, rfl, rfl, fun _ => rfl⟩, fun _ hwd _ => hwd⟩

/-- What others do twice, they may do. -/
theorem Rely.trans (branchId : Text) (w w' w'' : World) (h : Rely branchId w w') (h' : Rely branchId w' w'') :
    Rely branchId w w'' := by
  refine ⟨fun path branch hlookup => h'.worktrees path branch (h.worktrees path branch hlookup),
    h'.branch.trans h.branch, fun wd hwd => ?_, fun wd hwd hlink => h.links wd (h'.links wd hwd hlink) hlink⟩
  obtain ⟨wd₁, hwd₁, hid₁, hproject₁, hpath₁, hown₁⟩ := h.workdirs wd hwd
  obtain ⟨wd₂, hwd₂, hid₂, hproject₂, hpath₂, hown₂⟩ := h'.workdirs wd₁ hwd₁
  refine ⟨wd₂, hwd₂, hid₂.trans hid₁, hproject₂.trans hproject₁, hpath₂.trans hpath₁, fun hlink => ?_⟩
  have hsame : wd₁ = wd := hown₁ hlink
  exact (hown₂ (hsame ▸ hlink)).trans hsame

/-! ## The condition -/

/-- A call of a thread is timely: the name of the copy is the stored one, or is checked out elsewhere so that a new name
is chosen; a workdir is assigned only while it is free. -/
def Timely (dir : Path) (job : Job) (w : World) : Call → Outcome → Prop
  | .listWorktrees branchName, f => f.failure = none → branchName = job.branch.branchName →
      (w.branches.lookup job.branch.id).map (·.branchName) = some branchName ∨
        existingWorktree branchName (some (job.root dir))
          (w.worktrees.entries.map fun e => (e.1, e.2)) = .stale
  | .assignWorkdir workdir branchId, f => f.failure = none → ∀ wd ∈ w.workdirs, wd.id = workdir →
      wd.branchId = none ∨ wd.branchId = some branchId
  | _, _ => True

instance Timely.decidable (dir : Path) (job : Job) (w : World) (c : Call) (f : Outcome) : Decidable (Timely dir job w c f) := by
  unfold Timely
  split <;> infer_instance

variable {path : Path} {name branchId : Text}

section

variable {dir : Path} {job : Job} {w w' : World}

/-! ## The clone -/

/-- A new worktree leaves what was linked before. -/
theorem Inv.addWorktree (h : Inv dir w) {branchName : Text} (hnone : w.worktrees.lookup path = none) :
    Inv dir (w.addWorktree path branchName) ∧ ∀ branchId, Rely branchId w (w.addWorktree path branchName) := by
  have hkeep (path' : Path) (branch : Option Text) (hlookup : w.worktrees.lookup path' = some branch) :
      (w.addWorktree path branchName).worktrees.lookup path' = some branch := by
    have hne : path' ≠ path := by
      rintro rfl
      rw [hnone] at hlookup
      cases hlookup
    exact (AList.lookup_insert_ne hne).trans hlookup
  refine ⟨⟨h.paths, h.ids, h.fresh, fun wd hwd branchId hlink => ?_⟩,
    fun branchId => ⟨hkeep, rfl, fun wd hwd => ⟨wd, hwd, rfl, rfl, rfl, fun _ => rfl⟩, fun _ hwd _ => hwd⟩⟩
  obtain ⟨row, hrow, hroot, hchecked⟩ := h.linked wd hwd branchId hlink
  exact ⟨row, hrow, hroot, hkeep _ _ hchecked⟩

/-- A branch in git concerns no row. -/
theorem Inv.addBranch (h : Inv dir w) (branchName : Text) :
    Inv dir (w.addBranch branchName) ∧ ∀ branchId, Rely branchId w (w.addBranch branchName) :=
  ⟨⟨h.paths, h.ids, h.fresh, h.linked⟩,
    fun _ => ⟨fun _ _ h => h, rfl, fun wd hwd => ⟨wd, hwd, rfl, rfl, rfl, fun _ => rfl⟩, fun _ hwd _ => hwd⟩⟩

/-- What a failed `git worktree add` leaves behind is at a path without a worktree. -/
theorem Inv.afterFailedAdd (h : Inv dir w) {branchName : Text} (hnone : w.worktrees.lookup path = none)
    (effect : AddEffect) : Inv dir (w.afterFailedAdd path branchName effect) ∧
      ∀ branchId, Rely branchId w (w.afterFailedAdd path branchName effect) := by
  cases effect with
  | nothing => exact ⟨h, fun branchId => Rely.refl branchId w⟩
  | branch => exact h.addBranch branchName
  | worktree => exact h.addWorktree hnone

/-- `git worktree add` on a clone. -/
theorem handle_worktreeAdd (h : Inv dir w) (path : Path) (branchName : Text) (newFrom : Option Text) (f : Outcome) :
    (Inv dir (handle w (.worktreeAdd path branchName newFrom) f).2 ∧
      ∀ branchId, Rely branchId w (handle w (.worktreeAdd path branchName newFrom) f).2) ∧
    ((handle w (.worktreeAdd path branchName newFrom) f).1 = .ok () →
      (handle w (.worktreeAdd path branchName newFrom) f).2.worktrees.lookup path = some (some branchName)) := by
  simp only [handle]
  split
  next hcan =>
    have hnone : w.worktrees.lookup path = none := by
      rw [World.canAdd, decide_eq_true_iff] at hcan
      exact Option.isNone_iff_eq_none.mp hcan.1
    split
    next e => exact ⟨h.afterFailedAdd hnone f.effect, fun hok => by cases hok⟩
    next => exact ⟨h.addWorktree hnone, fun _ => AList.lookup_insert _⟩
  next => exact ⟨⟨h, fun branchId => Rely.refl branchId w⟩, fun hok => by cases hok⟩

/-! ## What a call knows -/

/-- The row is there, and has no workdir. -/
structure Knows (job : Job) (w : World) : Prop where
  row : ∃ row, w.branches.lookup job.branch.id = some row ∧ row.projectId = job.branch.projectId
  unlinked : ∀ wd ∈ w.workdirs, wd.branchId ≠ some job.branch.id

/-- The name is the stored one. -/
def Stored (job : Job) (name : Text) (w : World) : Prop :=
  (w.branches.lookup job.branch.id).map (·.branchName) = some name

/-- The path lies under the project's directory and has the branch checked out. -/
def Good (dir : Path) (job : Job) (name : Text) (path : Path) (w : World) : Prop :=
  job.root dir <+: path ∧ w.worktrees.lookup path = some (some name)

/-- Other calls leave the row of the branch alone. -/
theorem Knows.of_rely (h : Knows job w) (hrely : Rely job.branch.id w w') : Knows job w' := by
  refine ⟨hrely.branch.symm ▸ h.row, fun wd hwd hlink => ?_⟩
  exact h.unlinked wd (hrely.links wd hwd hlink) hlink

/-- Other calls leave the stored name alone. -/
theorem Stored.of_rely (h : Stored job name w) (hrely : Rely job.branch.id w w') : Stored job name w' := by
  rw [Stored, hrely.branch]
  exact h

/-- Other calls leave the worktree alone. -/
theorem Good.of_rely (h : Good dir job name path w) (hrely : Rely job.branch.id w w') :
    Good dir job name path w' := ⟨h.1, hrely.worktrees path _ h.2⟩

variable {α β : Type} {post : α → World → Prop}

/-- What a call may do among others. -/
abbrev SafeCall (dir : Path) (job : Job) (post : α → World → Prop) (x : WorktreeM α) (w : World) : Prop :=
  Program.Safe handle (Timely dir job) (Inv dir) (Rely job.branch.id)
    (fun w w' => ∀ branchId, branchId ≠ job.branch.id → Rely branchId w w') post x w

/-- The same for a part that does not touch the branch of the call either. -/
abbrev SafeGit (dir : Path) (job : Job) (post : α → World → Prop) (x : WorktreeM α) (w : World) : Prop :=
  Program.Safe handle (Timely dir job) (Inv dir) (Rely job.branch.id) (fun w w' => ∀ branchId, Rely branchId w w') post x w

theorem SafeGit.frame {x : WorktreeM α} (h : SafeGit dir job post x w) :
    SafeCall dir job (fun a w' => post a w' ∧ Rely job.branch.id w w') x w :=
  Program.Safe.frame (Rely.trans _) (fun _ _ hquiet => hquiet _) (fun _ _ hquiet branchId _ => hquiet branchId) (Rely.refl _ _) h

section

variable {guar : World → World → Prop}

/-- A call that changes nothing. -/
theorem safe_ask (hguar : ∀ w, guar w w) {c : Call} (hsame : ∀ w g, (handle w c g).2 = w) {f : Reply c → WorktreeM α}
    (h : ∀ w', Inv dir w' → Rely job.branch.id w w' → ∀ g, Timely dir job w' c g →
      Program.Safe handle (Timely dir job) (Inv dir) (Rely job.branch.id) guar post (f (handle w' c g).1) w') :
    Program.Safe handle (Timely dir job) (Inv dir) (Rely job.branch.id) guar post (ask c >>= f) w := by
  intro w' hinv hrely g htimely
  show (Inv dir (handle w' c g).2 ∧ guar w' (handle w' c g).2) ∧
    Program.Safe handle (Timely dir job) (Inv dir) (Rely job.branch.id) guar post (f (handle w' c g).1) (handle w' c g).2
  rw [hsame w' g]
  exact ⟨⟨hinv, hguar w'⟩, h w' hinv hrely g htimely⟩

theorem safe_pure {a : α} (h : ∀ w', Inv dir w' → Rely job.branch.id w w' → post a w') :
    Program.Safe handle (Timely dir job) (Inv dir) (Rely job.branch.id) guar post (Pure.pure a : WorktreeM α) w := h

/-- The rule for `?`. -/
theorem safe_orFail_bind {r : Except Text α} {f : α → WorktreeM β} {post' : β → World → Prop}
    (h : ∀ a, r = .ok a → Program.Safe handle (Timely dir job) (Inv dir) (Rely job.branch.id) guar post' (f a) w) :
    Program.Safe handle (Timely dir job) (Inv dir) (Rely job.branch.id) guar post' (orFail r >>= f) w := by
  cases r with
  | ok a => exact h a rfl
  | error e => exact safe_fail

/-- The rule for `?` at the end. -/
theorem safe_orFail {r : Except Text α} (h : ∀ a, r = .ok a → ∀ w', Inv dir w' → Rely job.branch.id w w' → post a w') :
    Program.Safe handle (Timely dir job) (Inv dir) (Rely job.branch.id) guar post (orFail r) w := by
  cases r with
  | ok a => exact h a rfl
  | error e => exact safe_fail

end

theorem everyone_refl (w : World) : ∀ branchId, Rely branchId w w := fun branchId => Rely.refl branchId w

theorem others_refl (w : World) : ∀ branchId, branchId ≠ job.branch.id → Rely branchId w w := fun branchId _ =>
  Rely.refl branchId w

/-- A call with any reply that changes nothing. -/
theorem safe_ask_any {c : Call} (hsame : ∀ w g, (handle w c g).2 = w) {f : Reply c → WorktreeM α}
    (h : ∀ r w', SafeGit dir job post (f r) w') : SafeGit dir job post (ask c >>= f) w :=
  safe_ask everyone_refl hsame fun _ _ _ _ _ => h _ _

/-! ## Choosing a worktree -/

/-- What a search gives. -/
def Finds (dir : Path) (job : Job) (name : Text) (existing : ExistingWorktree) (w : World) : Prop :=
  (∀ path, existing = .found path → Good dir job name path w) ∧
    (name = job.branch.branchName → existing ≠ .stale → Stored job name w)

theorem Finds.of_rely {existing : ExistingWorktree} (h : Finds dir job name existing w)
    (hrely : Rely job.branch.id w w') : Finds dir job name existing w' :=
  ⟨fun path hfound => (h.1 path hfound).of_rely hrely, fun hname hstale => (h.2 hname hstale).of_rely hrely⟩

/-- What is found has the branch and is below the root. -/
theorem existingWorktree_found {root : Path} {worktrees : List (Path × Option Text)}
    (h : existingWorktree name (some root) worktrees = .found path) : (path, some name) ∈ worktrees ∧ root <+: path := by
  induction worktrees with
  | nil => cases h
  | cons worktree worktrees ih =>
    obtain ⟨path', branch⟩ := worktree
    rw [existingWorktree] at h
    split at h
    next =>
      obtain ⟨hmem, hroot⟩ := ih h
      exact ⟨List.mem_cons_of_mem _ hmem, hroot⟩
    next hbranch =>
      obtain rfl := not_not.mp hbranch
      split at h
      next hroot =>
        cases h
        exact ⟨List.mem_cons_self, hroot⟩
      next => cases h

/-- The search for a worktree of the branch changes nothing. -/
theorem safe_find (name : Text) :
    SafeGit dir job (fun r w' => ∀ existing, r = .ok existing → Finds dir job name existing w')
      (findExistingWorktreeForBranch name (some (job.root dir))) w := by
  apply safe_ask everyone_refl
  · intro w' g
    simp only [handle]
    split <;> rfl
  · intro w' hinv _ g htimely
    simp only [handle]
    cases hfailure : g.failure with
    | some e => exact safe_pure fun w'' _ _ existing hok => by cases hok
    | none =>
      have hfinds : Finds dir job name (existingWorktree name (some (job.root dir))
          (w'.worktrees.entries.map fun e => (e.1, e.2))) w' := by
        refine ⟨fun path hfound => ?_, fun hname hstale => ?_⟩
        · obtain ⟨hmem, hroot⟩ := existingWorktree_found hfound
          obtain ⟨⟨path', branch⟩, hentry, heq⟩ := List.mem_map.mp hmem
          cases heq
          exact ⟨hroot, AList.mem_lookup_iff.mpr hentry⟩
        · exact (htimely hfailure hname).resolve_right hstale
      refine safe_pure fun w'' _ hrely existing hok => ?_
      cases hok
      exact hfinds.of_rely hrely

/-- What an attempt to get a worktree gives. -/
def Gives (dir : Path) (job : Job) (name : Text) (r : Except Text Path) (w : World) : Prop :=
  ∀ path, r = .ok path → Good dir job name path w

theorem safe_error {name e : Text} : SafeGit dir job (Gives dir job name) (Pure.pure (.error e)) w :=
  safe_pure fun w' _ _ path hok => by cases hok

theorem safe_ok {name : Text} {path : Path} (h : Good dir job name path w) :
    SafeGit dir job (Gives dir job name) (Pure.pure (.ok path)) w := by
  refine safe_pure fun w' _ hrely path' hok => ?_
  cases hok
  exact h.of_rely hrely

/-- A worktree that git makes at the path has the branch. -/
theorem safe_addAtPath (name : Text) (newFrom : Option Text) {path : Path}
    (hroot : job.root dir <+: path) :
    SafeGit dir job (Gives dir job name) (addAtPath name newFrom path) w := by
  apply safe_ask_any
  · intro w' g
    simp only [handle]
    split <;> rfl
  · intro r w₁
    split
    next e => exact safe_error
    next =>
      apply safe_ask_any fun _ _ => rfl
      intro taken w₂
      split
      next => exact safe_error
      next =>
        intro w₃ hinv _ g _
        obtain ⟨⟨hinv', hguar⟩, hadded⟩ := handle_worktreeAdd hinv path name newFrom g
        refine ⟨⟨hinv', hguar⟩, ?_⟩
        cases hreply : (handle w₃ (.worktreeAdd path name newFrom) g).1 with
        | error e =>
          exact safe_error
        | ok =>
          exact safe_ok ⟨hroot, hadded hreply⟩

/-- Every fallback is below the parent. -/
theorem safe_fallbackFrom (parent : Path) (fileName : Text) (suffixes : List ℕ) :
    SafeGit dir job (fun r _ => ∀ path, r = some path → parent <+: path) (fallbackFrom parent fileName suffixes) w := by
  induction suffixes generalizing w with
  | nil => exact safe_pure fun w' _ _ path hok => by cases hok
  | cons suffix rest ih =>
    apply safe_ask_any fun _ _ => rfl
    intro taken w'
    split
    next => exact ih
    next =>
      refine safe_pure fun w'' _ _ path hok => ?_
      cases hok
      exact List.prefix_append _ _

theorem safe_fallbackWorktreePathFor (root : Path) (name : Text) :
    SafeGit dir job (fun r _ => ∀ path, r = some path → root <+: path) (fallbackWorktreePathFor (root ++ [name])) w := by
  apply safe_ask_any fun _ _ => rfl
  intro taken w'
  split
  next =>
    rw [List.getLast?_concat, List.dropLast_concat]
    exact safe_fallbackFrom root name _
  next =>
    refine safe_pure fun w'' _ _ path hok => ?_
    cases hok
    exact List.prefix_append _ _

/-- What is done after a path was taken: another path is tried, if there is one. -/
theorem safe_fallback (name : Text) (newFrom : Option Text) (last err : Text)
    {next : Option Path → WorktreeM (Except Text Path)} (hnone : next none = Pure.pure (.error err))
    (hsome : ∀ path, next (some path) =
      if path = job.root dir ++ [last] then Pure.pure (.error err) else addAtPath name newFrom path) :
    SafeGit dir job (Gives dir job name)
      (if isWorktreePathExistsError err then fallbackWorktreePathFor (job.root dir ++ [last]) >>= next
      else Pure.pure (.error err)) w := by
  split
  next =>
    apply (safe_fallbackWorktreePathFor _ last).bind (Rely.refl _)
    rintro r w' - hroot
    cases r with
    | none =>
      rw [hnone]
      exact safe_error
    | some path =>
      rw [hsome]
      split
      next => exact safe_error
      next => exact safe_addAtPath name newFrom (hroot path rfl)
  next => exact safe_error

/-- The path, or a fallback for it, gets a worktree with the branch. -/
theorem safe_withFallback (name : Text) (newFrom : Option Text) (last : Text) :
    SafeGit dir job (Gives dir job name)
      (withFallback name newFrom (job.root dir ++ [last]) (some (job.root dir))) w := by
  apply (safe_addAtPath name newFrom (List.prefix_append _ _)).bind (Rely.refl _)
  rintro r w₁ - hgives
  cases r with
  | ok path => exact safe_ok (hgives path rfl)
  | error err =>
    apply (safe_find name).bind (Rely.refl _)
    rintro r w₂ - hfinds
    cases r with
    | error e => exact safe_error
    | ok existing =>
      cases existing with
      | found path => exact safe_ok ((hfinds _ rfl).1 path rfl)
      | none | stale => exact safe_fallback name newFrom last err rfl fun _ => rfl

/-- The name found differs from the one in use. -/
theorem safe_uniqueFrom (baseName : Text) (suffixes : List ℕ) :
    SafeGit dir job (fun name _ => name ≠ baseName) (uniqueFrom baseName suffixes) w := by
  induction suffixes generalizing w with
  | nil => exact safe_fail
  | cons suffix rest ih =>
    apply safe_ask_any fun _ _ => rfl
    intro taken w'
    split
    next => exact ih
    next =>
      refine safe_pure fun w'' _ _ hsame => ?_
      have hlength := congrArg List.length hsame
      simp only [List.length_append, String.length_toList] at hlength
      have hdash : "-".length = 1 := rfl
      omega

theorem safe_startPoint : SafeGit dir job (fun _ _ => True) (startPoint job.branch) w := by
  unfold startPoint
  cases job.branch.prNumber with
  | some prNumber =>
    apply safe_ask_any
    · intro w' g
      simp only [handle]
      split <;> rfl
    · exact fun r w' => safe_orFail fun _ _ _ _ _ => trivial
  | none =>
    apply safe_ask_any fun _ _ => rfl
    intro onRemote w'
    split <;> exact safe_pure fun _ _ _ => trivial

theorem safe_orFail_gives {name : Text} {r : Except Text Path} (hgives : Gives dir job name r w) :
    SafeGit dir job (Good dir job name) (orFail r) w :=
  safe_orFail fun path hok _ _ hrely => (hgives path hok).of_rely hrely

theorem safe_good {name : Text} {path : Path} (h : Good dir job name path w) :
    SafeGit dir job (Good dir job name) (Pure.pure path) w := safe_pure fun _ _ hrely => h.of_rely hrely

/-- A new branch gets a worktree. -/
theorem safe_createNew (name last : Text) :
    SafeGit dir job (Good dir job name)
      (createNew job.branch name (job.root dir ++ [last]) (some (job.root dir))) w := by
  apply safe_startPoint.bind (Rely.refl _)
  rintro start w₁ - -
  apply (safe_withFallback name (some (remoteStart start)) last).bind (Rely.refl _)
  rintro r w₂ - hgives
  cases r with
  | ok path => exact safe_good (hgives path rfl)
  | error createErr =>
    apply (safe_find name).bind (Rely.refl _)
    rintro r w₃ - hfinds
    apply safe_orFail_bind
    rintro existing rfl
    -- the branch may have appeared meanwhile
    have hretry : SafeGit dir job (Good dir job name)
        (do
          if (← ask (.branchExists name) : Bool) then
            orFail (← createWorktreeForExistingBranchWithFallback name (job.root dir ++ [last]) (some (job.root dir)))
          else .fail createErr) w₃ := by
      apply safe_ask_any fun _ _ => rfl
      intro appeared w₄
      split
      next =>
        apply (safe_withFallback name none last).bind (Rely.refl _)
        exact fun r w₅ _ hgives => safe_orFail_gives hgives
      next => exact safe_fail
    cases existing with
    | found path => exact safe_good ((hfinds _ rfl).1 path rfl)
    | none => exact hretry
    | stale => exact hretry

/-- What is known of the name: a fresh one, or that of the record, which then is the stored one. -/
structure Named (dir : Path) (job : Job) (existing : ExistingWorktree) (name : Text) (w : World) : Prop where
  stored : name = job.branch.branchName → Stored job name w
  found : ∀ path, existing = .found path → Good dir job name path w

/-- The name of the branch, or a new one if its worktree is elsewhere. -/
theorem safe_chooseName {existing : ExistingWorktree} (hfinds : Finds dir job job.branch.branchName existing w) :
    SafeGit dir job (Named dir job existing) (chooseName job.branch existing) w := by
  have hkept (hnot : existing ≠ .stale) : SafeGit dir job (Named dir job existing) (Pure.pure job.branch.branchName) w :=
    safe_pure fun w' _ hrely =>
      ⟨fun _ => (hfinds.2 rfl hnot).of_rely hrely, fun path hfound => (hfinds.1 path hfound).of_rely hrely⟩
  cases existing with
  | found path => exact hkept fun hstale => by cases hstale
  | none => exact hkept fun hstale => by cases hstale
  | stale =>
    apply (safe_uniqueFrom job.branch.branchName _).mono
    exact fun name w' _ hfresh => ⟨fun hsame => absurd hsame hfresh, fun path hfound => by cases hfound⟩

/-- The worktree that is there, or a new one. -/
theorem safe_chooseWorktree {existing : ExistingWorktree} {name : Text} (hnamed : Named dir job existing name w)
    (last : Text) :
    SafeGit dir job (Good dir job name)
      (chooseWorktree job.branch name existing (job.root dir ++ [last]) (some (job.root dir))) w := by
  have hcreate : SafeGit dir job (Good dir job name)
      (do
        if name = job.branch.branchName then
          if (← ask (.branchExists name) : Bool) then
            orFail (← createWorktreeForExistingBranchWithFallback name (job.root dir ++ [last]) (some (job.root dir)))
          else createNew job.branch name (job.root dir ++ [last]) (some (job.root dir))
        else createNew job.branch name (job.root dir ++ [last]) (some (job.root dir))) w := by
    split
    next =>
      apply safe_ask_any fun _ _ => rfl
      intro present w'
      split
      next =>
        apply (safe_withFallback name none last).bind (Rely.refl _)
        exact fun r w₅ _ hgives => safe_orFail_gives hgives
      next => exact safe_createNew name last
    next => exact safe_createNew name last
  cases existing with
  | found path => exact safe_good (hnamed.found path rfl)
  | none => exact hcreate
  | stale => exact hcreate

theorem safe_trackPr (name : Text) : SafeGit dir job (fun _ _ => True) (trackPr job.branch name) w := by
  unfold trackPr
  split
  next => exact safe_ask everyone_refl (fun _ _ => rfl) fun _ _ _ _ _ => safe_pure fun _ _ _ => trivial
  next => exact safe_pure fun _ _ _ => trivial

/-! ## Linking a worktree -/

/-- The path can be linked. -/
structure Ready (dir : Path) (job : Job) (name : Text) (path : Path) (w : World) : Prop where
  knows : Knows job w
  good : Good dir job name path w
  stored : Stored job name w

/-- Other calls leave all of this alone. -/
theorem Ready.of_rely (h : Ready dir job name path w) (hrely : Rely job.branch.id w w') :
    Ready dir job name path w' := ⟨h.knows.of_rely hrely, h.good.of_rely hrely, h.stored.of_rely hrely⟩

/-- A path that is ready is right for the branch. -/
theorem Ready.right (h : Ready dir job name path w) : Right dir w job.branch.id path := by
  obtain ⟨row, hrow, hproject⟩ := h.knows.row
  have hname : row.branchName = name := by
    have hstored := h.stored
    rw [Stored, hrow] at hstored
    exact Option.some.inj hstored
  exact ⟨row, hrow, hproject ▸ h.good.1, hname ▸ h.good.2⟩

/-- A branch without workdirs gets another name. -/
theorem Inv.setBranchName (h : Inv dir w) (hunlinked : ∀ wd ∈ w.workdirs, wd.branchId ≠ some branchId)
    (branchName : Text) : Inv dir (w.setBranchName branchId branchName) ∧
      ∀ branchId', branchId' ≠ branchId → Rely branchId' w (w.setBranchName branchId branchName) := by
  unfold World.setBranchName
  split
  next row hrow =>
    have hother (branchId' : Text) (hne : branchId' ≠ branchId) :
        (w.branches.insert branchId { row with branchName }).lookup branchId' = w.branches.lookup branchId' :=
      AList.lookup_insert_ne hne
    refine ⟨⟨h.paths, h.ids, h.fresh, fun wd hwd branchId' hlink => ?_⟩, fun branchId' hne =>
      ⟨fun _ _ h => h, hother branchId' hne, fun wd hwd => ⟨wd, hwd, rfl, rfl, rfl, fun _ => rfl⟩, fun _ hwd _ => hwd⟩⟩
    have hne : branchId' ≠ branchId := by
      rintro rfl
      exact hunlinked wd hwd hlink
    obtain ⟨row', hrow', hright⟩ := h.linked wd hwd branchId' hlink
    exact ⟨row', (hother branchId' hne).trans hrow', hright⟩
  next => exact ⟨h, fun branchId' _ => Rely.refl branchId' w⟩

/-- A new name is stored in the row of the branch. -/
theorem Knows.setBranchName (h : Knows job w) (name : Text) :
    Knows job (w.setBranchName job.branch.id name) ∧ Stored job name (w.setBranchName job.branch.id name) := by
  obtain ⟨row, hrow, hproject⟩ := h.row
  have hset : w.setBranchName job.branch.id name =
      { w with branches := w.branches.insert job.branch.id { row with branchName := name } } := by
    rw [World.setBranchName, hrow]
  rw [hset]
  refine ⟨⟨⟨_, AList.lookup_insert _, hproject⟩, h.unlinked⟩, ?_⟩
  show ((w.branches.insert job.branch.id { row with branchName := name }).lookup job.branch.id).map _ = _
  rw [AList.lookup_insert]
  rfl

/-- The name in the other table. -/
theorem safe_updateRepo {name : Text} {path : Path} (hready : Ready dir job name path w) :
    SafeCall dir job (fun _ => Ready dir job name path)
      (match job.branch.projectRepoId with
        | some repoId => do orFail (← ask (.updateProjectRepoBranchName job.branch.projectId repoId name) : Except Text Unit)
        | none => return ()) w := by
  cases job.branch.projectRepoId with
  | none => exact safe_pure fun w' _ hrely => hready.of_rely hrely
  | some repoId =>
    intro w₁ hinv hrely g _
    have hready₁ : Ready dir job name path w₁ := hready.of_rely hrely
    -- only the other table changes
    have hquiet : ∃ repoBranchNames, (handle w₁ (.updateProjectRepoBranchName job.branch.projectId repoId name) g).2 =
        { w₁ with repoBranchNames } := by
      simp only [handle]
      split
      next => exact ⟨_, rfl⟩
      next =>
        split
        next => exact ⟨_, rfl⟩
        next => exact ⟨_, rfl⟩
    obtain ⟨repoBranchNames, hstate⟩ := hquiet
    have hrely₂ (branchId : Text) : Rely branchId w₁ { w₁ with repoBranchNames } :=
      ⟨fun _ _ h => h, rfl, fun wd hwd => ⟨wd, hwd, rfl, rfl, rfl, fun _ => rfl⟩, fun _ hwd _ => hwd⟩
    show (Inv dir (handle w₁ (.updateProjectRepoBranchName job.branch.projectId repoId name) g).2 ∧
        ∀ branchId, _ → Rely branchId w₁ (handle w₁ (.updateProjectRepoBranchName job.branch.projectId repoId name) g).2) ∧
      SafeCall dir job _ (orFail (handle w₁ (.updateProjectRepoBranchName job.branch.projectId repoId name) g).1)
        (handle w₁ (.updateProjectRepoBranchName job.branch.projectId repoId name) g).2
    rw [hstate]
    refine ⟨⟨⟨hinv.paths, hinv.ids, hinv.fresh, hinv.linked⟩, fun branchId _ => hrely₂ branchId⟩, ?_⟩
    exact safe_orFail fun _ _ w' _ hrely' => (hready₁.of_rely (hrely₂ _)).of_rely hrely'

/-- The name is stored before the path is assigned. -/
theorem safe_persistName (hknows : Knows job w) (hgood : Good dir job name path w)
    (hstored : name = job.branch.branchName → Stored job name w) :
    SafeCall dir job (fun _ => Ready dir job name path) (persistName job.branch name) w := by
  unfold persistName
  split
  next hsame => exact safe_pure fun w' _ hrely =>
    ⟨hknows.of_rely hrely, hgood.of_rely hrely, (hstored hsame).of_rely hrely⟩
  next =>
    intro w₁ hinv hrely g _
    have hknows₁ : Knows job w₁ := hknows.of_rely hrely
    have hgood₁ : Good dir job name path w₁ := hgood.of_rely hrely
    show (Inv dir (handle w₁ (.updateBranchName job.branch.id name) g).2 ∧
        ∀ branchId, _ → Rely branchId w₁ (handle w₁ (.updateBranchName job.branch.id name) g).2) ∧
      SafeCall dir job _ (orFail (handle w₁ (.updateBranchName job.branch.id name) g).1 >>= fun _ => _)
        (handle w₁ (.updateBranchName job.branch.id name) g).2
    simp only [handle]
    split
    next => exact ⟨⟨hinv, others_refl w₁⟩, safe_fail⟩
    next =>
      split
      next => exact ⟨⟨hinv, others_refl w₁⟩, safe_fail⟩
      next =>
        obtain ⟨hinv', hguar⟩ := hinv.setBranchName hknows₁.unlinked name
        obtain ⟨hknows', hstored'⟩ := hknows₁.setBranchName name
        have hgood' : Good dir job name path (w₁.setBranchName job.branch.id name) := by
          refine ⟨hgood₁.1, ?_⟩
          unfold World.setBranchName
          split <;> exact hgood₁.2
        exact ⟨⟨hinv', hguar⟩, safe_updateRepo ⟨hknows', hgood', hstored'⟩⟩

/-- A path of the branch: it is linked, and right. -/
def Returns (dir : Path) (job : Job) (path : Path) (w : World) : Prop :=
  (∃ wd ∈ w.workdirs, wd.branchId = some job.branch.id ∧ wd.path = path) ∧ Right dir w job.branch.id path

instance Returns.decidable (dir : Path) (job : Job) (path : Path) (w : World) : Decidable (Returns dir job path w) :=
  inferInstanceAs (Decidable ((∃ wd ∈ w.workdirs, wd.branchId = some job.branch.id ∧ wd.path = path) ∧
    Right dir w job.branch.id path))

theorem Returns.of_rely (h : Returns dir job path w) (hrely : Rely job.branch.id w w') (hinv : Inv dir w') :
    Returns dir job path w' := by
  obtain ⟨⟨wd, hwd, hlink, rfl⟩, -⟩ := h
  obtain ⟨wd', hwd', -, -, -, hown⟩ := hrely.workdirs wd hwd
  rw [hown hlink] at hwd'
  exact ⟨⟨wd, hwd', hlink, rfl⟩, hinv.linked wd hwd' job.branch.id hlink⟩

/-- A workdir that was free is assigned to a branch for which its path is right. -/
theorem Inv.assign (h : Inv dir w) {wd : Workdir} (hwd : wd ∈ w.workdirs)
    (hfree : wd.branchId = none ∨ wd.branchId = some branchId) (hright : Right dir w branchId wd.path) :
    Inv dir (w.assign wd.id branchId) ∧ (∀ branchId', branchId' ≠ branchId → Rely branchId' w (w.assign wd.id branchId)) ∧
      { wd with branchId := some branchId } ∈ (w.assign wd.id branchId).workdirs := by
  -- ids are unique, so only this workdir changes
  have hone {other : Workdir} (hother : other ∈ w.workdirs) (hid : other.id = wd.id) : other = wd :=
    List.inj_on_of_nodup_map h.ids hother hwd hid
  have hproj {γ : Type} (proj : Workdir → γ) (hproj : ∀ other : Workdir, proj { other with branchId := some branchId } = proj other) :
      (w.assign wd.id branchId).workdirs.map proj = w.workdirs.map proj := by
    show (w.workdirs.map _).map proj = _
    rw [List.map_map]
    refine List.map_congr_left fun other _ => ?_
    show proj (if _ then _ else _) = _
    split
    next => exact hproj other
    next => rfl
  have hmem {new : Workdir} (hnew : new ∈ (w.assign wd.id branchId).workdirs) :
      (new = { wd with branchId := some branchId }) ∨ (new ∈ w.workdirs ∧ new.id ≠ wd.id) := by
    obtain ⟨other, hother, rfl⟩ := List.mem_map.mp hnew
    split
    next hid => exact .inl (by rw [hone hother hid])
    next hid => exact .inr ⟨hother, hid⟩
  have hassigned : { wd with branchId := some branchId } ∈ (w.assign wd.id branchId).workdirs :=
    List.mem_map.mpr ⟨wd, hwd, if_pos rfl⟩
  refine ⟨⟨?_, ?_, fun new hnew => ?_, fun new hnew branchId' hlink => ?_⟩, fun branchId' hne =>
    ⟨fun _ _ h => h, rfl, fun other hother => ?_, fun new hnew hlink => ?_⟩, hassigned⟩
  · rw [hproj (fun wd => (wd.projectId, wd.path)) fun _ => rfl]
    exact h.paths
  · rw [hproj (·.id) fun _ => rfl]
    exact h.ids
  · rcases hmem hnew with rfl | ⟨hold, -⟩
    · exact h.fresh wd hwd
    · exact h.fresh new hold
  · rcases hmem hnew with rfl | ⟨hold, -⟩
    · cases hlink
      exact hright
    · exact h.linked new hold branchId' hlink
  -- another branch had no link to this workdir
  · by_cases hid : other.id = wd.id
    · obtain rfl := hone hother hid
      refine ⟨_, hassigned, rfl, rfl, rfl, fun hlink => ?_⟩
      rcases hfree with hfree | hfree
      · rw [hfree] at hlink
        cases hlink
      · rw [hfree] at hlink
        exact absurd (Option.some.inj hlink).symm hne
    · exact ⟨other, List.mem_map.mpr ⟨other, hother, if_neg hid⟩, rfl, rfl, rfl, fun _ => rfl⟩
  · rcases hmem hnew with rfl | ⟨hold, -⟩
    · exact absurd (Option.some.inj hlink).symm hne
    · exact hold

/-- A new workdir for a path that has none in the project. -/
theorem Inv.addWorkdir (h : Inv dir w) {projectId : Text}
    (hnew : ∀ wd ∈ w.workdirs, ¬ (wd.projectId = projectId ∧ wd.path = path)) (hright : Right dir w branchId path) :
    Inv dir (w.addWorkdir projectId path branchId) ∧
      ∀ branchId', branchId' ≠ branchId → Rely branchId' w (w.addWorkdir projectId path branchId) := by
  have hmem {wd : Workdir} (hwd : wd ∈ (w.addWorkdir projectId path branchId).workdirs) :
      wd ∈ w.workdirs ∨ wd = ⟨w.nextWorkdir, projectId, path, some branchId⟩ := by
    rcases List.mem_append.mp hwd with hold | hnew
    · exact .inl hold
    · exact .inr (List.mem_singleton.mp hnew)
  -- neither the path nor the number is in use
  have hnodup {γ : Type} (proj : Workdir → γ) (hold : (w.workdirs.map proj).Nodup)
      (hfresh : ∀ wd ∈ w.workdirs, proj wd ≠ proj ⟨w.nextWorkdir, projectId, path, some branchId⟩) :
      ((w.addWorkdir projectId path branchId).workdirs.map proj).Nodup := by
    show ((w.workdirs ++ [_]).map proj).Nodup
    rw [List.map_append, List.nodup_append]
    refine ⟨hold, List.nodup_singleton _, fun a ha b hb => ?_⟩
    obtain ⟨wd, hwd, rfl⟩ := List.mem_map.mp ha
    rw [List.mem_singleton.mp hb]
    exact hfresh wd hwd
  refine ⟨⟨?_, ?_, fun wd hwd => ?_, fun wd hwd branchId' hlink => ?_⟩, fun branchId' hne =>
    ⟨fun _ _ h => h, rfl, fun wd hwd => ⟨wd, List.mem_append_left _ hwd, rfl, rfl, rfl, fun _ => rfl⟩, fun wd hwd hlink => ?_⟩⟩
  · exact hnodup _ h.paths fun wd hwd heq => hnew wd hwd (Prod.mk.inj heq)
  · exact hnodup _ h.ids fun wd hwd heq => Nat.ne_of_lt (h.fresh wd hwd) heq
  · rcases hmem hwd with hold | rfl
    · exact Nat.lt_succ_of_lt (h.fresh wd hold)
    · exact Nat.lt_succ_self _
  · rcases hmem hwd with hold | rfl
    · exact h.linked wd hold branchId' hlink
    · cases hlink
      exact hright
  · rcases hmem hwd with hold | rfl
    · exact hold
    · exact absurd (Option.some.inj hlink).symm hne

/-- The row of the workdir was listed as free. -/
theorem safe_assign (hready : Ready dir job name path w) {wd : Workdir}
    (hwd : wd ∈ w.workdirs) (hpath : wd.path = path) :
    SafeCall dir job (fun _ => Returns dir job path)
      (do orFail (← ask (.assignWorkdir wd.id job.branch.id) : Except Text Unit)) w := by
  intro w₁ hinv hrely g htimely
  have hready₁ : Ready dir job name path w₁ := hready.of_rely hrely
  obtain ⟨wd₁, hwd₁, hid, -, hpath₁, -⟩ := hrely.workdirs wd hwd
  show (Inv dir (handle w₁ (.assignWorkdir wd.id job.branch.id) g).2 ∧
      ∀ branchId, _ → Rely branchId w₁ (handle w₁ (.assignWorkdir wd.id job.branch.id) g).2) ∧
    SafeCall dir job _ (orFail (handle w₁ (.assignWorkdir wd.id job.branch.id) g).1)
      (handle w₁ (.assignWorkdir wd.id job.branch.id) g).2
  simp only [handle]
  cases hfailure : g.failure with
  | some e => exact ⟨⟨hinv, others_refl w₁⟩, safe_fail⟩
  | none =>
    dsimp only
    split
    next => exact ⟨⟨hinv, others_refl w₁⟩, safe_fail⟩
    next =>
      have hfree : wd₁.branchId = none ∨ wd₁.branchId = some job.branch.id := htimely hfailure wd₁ hwd₁ hid
      have hright : Right dir w₁ job.branch.id wd₁.path := by
        rw [hpath₁, hpath]
        exact hready₁.right
      obtain ⟨hinv', hguar, hassigned⟩ := hinv.assign hwd₁ hfree hright
      rw [hid] at hinv' hguar hassigned
      have hreturns : Returns dir job path (w₁.assign wd.id job.branch.id) :=
        ⟨⟨_, hassigned, rfl, hpath₁.trans hpath⟩, hready₁.right⟩
      exact ⟨⟨hinv', hguar⟩, safe_orFail fun _ _ w' hinv'' hrely' => hreturns.of_rely hrely' hinv''⟩

/-- A workdir is created for the path. -/
theorem safe_create (hready : Ready dir job name path w) : SafeCall dir job (fun _ => Returns dir job path)
      (do orFail (← ask (.createWorkdir job.branch.projectId path job.branch.id) : Except Text Unit)) w := by
  intro w₁ hinv hrely g _
  have hready₁ : Ready dir job name path w₁ := hready.of_rely hrely
  show (Inv dir (handle w₁ (.createWorkdir job.branch.projectId path job.branch.id) g).2 ∧
      ∀ branchId, _ → Rely branchId w₁ (handle w₁ (.createWorkdir job.branch.projectId path job.branch.id) g).2) ∧
    SafeCall dir job _ (orFail (handle w₁ (.createWorkdir job.branch.projectId path job.branch.id) g).1)
      (handle w₁ (.createWorkdir job.branch.projectId path job.branch.id) g).2
  simp only [handle]
  split
  next => exact ⟨⟨hinv, others_refl w₁⟩, safe_fail⟩
  next =>
    split
    next => exact ⟨⟨hinv, others_refl w₁⟩, safe_fail⟩
    next hunique =>
      have hnew : ∀ wd ∈ w₁.workdirs, ¬ (wd.projectId = job.branch.projectId ∧ wd.path = path) := fun wd hwd hsame =>
        hunique (.inr (List.any_eq_true.mpr ⟨wd, hwd, decide_eq_true hsame⟩))
      obtain ⟨hinv', hguar⟩ := hinv.addWorkdir hnew hready₁.right
      have hreturns : Returns dir job path (w₁.addWorkdir job.branch.projectId path job.branch.id) :=
        ⟨⟨_, List.mem_append_right _ (List.mem_singleton_self _), rfl, rfl⟩, hready₁.right⟩
      exact ⟨⟨hinv', hguar⟩, safe_orFail fun _ _ w' hinv'' hrely' => hreturns.of_rely hrely' hinv''⟩

/-- The workdir of the path is linked, or created. -/
theorem safe_linkWorkdir (hready : Ready dir job name path w) :
    SafeCall dir job (fun _ => Returns dir job path) (linkWorkdir job.branch path) w := by
  apply safe_ask others_refl
  · intro w' g
    simp only [handle]
    split <;> rfl
  · intro w₁ hinv hrely g _
    have hready₁ : Ready dir job name path w₁ := hready.of_rely hrely
    simp only [handle]
    cases g.failure with
    | some e => exact safe_fail
    | none =>
      apply safe_orFail_bind
      intro workdirs hlisted
      cases hlisted
      split
      next wd hfind =>
        have hwd : wd ∈ w₁.workdirs := (List.mem_filter.mp (List.mem_of_find?_eq_some hfind)).1
        have hpath : wd.path = path := by simpa using List.find?_some hfind
        split
        next existing hexisting =>
          split
          next hown => exact absurd (hexisting.trans (congrArg some hown)) (hready₁.knows.unlinked wd hwd)
          next => exact safe_fail
        next => exact safe_assign hready₁ hwd hpath
      next => exact safe_create hready₁

/-! ## The call -/

/-- The whole call, under the lock of its repository. -/
theorem safe_setUp (hknows : Knows job w) (last : Text) :
    SafeCall dir job (Returns dir job) (setUp job.branch (job.root dir ++ [last]) (some (job.root dir))) w := by
  apply (safe_find job.branch.branchName).frame.bind (Rely.refl _)
  rintro r w₁ - ⟨hfinds, hrely₁⟩
  apply safe_orFail_bind
  rintro existing rfl
  apply (safe_chooseName (hfinds existing rfl)).frame.bind (Rely.refl _)
  rintro name w₂ - ⟨hnamed, hrely₂⟩
  apply (safe_chooseWorktree hnamed last).frame.bind (Rely.refl _)
  rintro path w₃ - ⟨hgood, hrely₃⟩
  apply (safe_trackPr name).frame.bind (Rely.refl _)
  rintro - w₄ - ⟨-, hrely₄⟩
  -- what was known before git was asked still holds
  have hknows₄ : Knows job w₄ := (((hknows.of_rely hrely₁).of_rely hrely₂).of_rely hrely₃).of_rely hrely₄
  have hstored₄ (hsame : name = job.branch.branchName) : Stored job name w₄ :=
    ((hnamed.stored hsame).of_rely hrely₃).of_rely hrely₄
  apply (safe_persistName hknows₄ (hgood.of_rely hrely₄) hstored₄).bind (Rely.refl _)
  rintro - w₅ - hready
  apply (safe_linkWorkdir hready).bind (Rely.refl _)
  rintro - w₆ hinv hreturns
  exact safe_pure fun w' hinv' hrely => hreturns.of_rely hrely hinv'

theorem row_of_admits (hadmits : job.admits w = true) :
    ∃ row, w.branches.lookup job.branch.id = some row ∧ row.projectId = job.branch.projectId := by
  rw [Job.admits] at hadmits
  cases hrow : w.branches.lookup job.branch.id with
  | none =>
    rw [hrow] at hadmits
    cases hadmits
  | some row =>
    rw [hrow] at hadmits
    exact ⟨row, rfl, of_decide_eq_true hadmits⟩

/-- Every admitted call is safe from its start. -/
theorem safe_program (hadmits : job.admits w = true) : SafeCall dir job (Returns dir job) (job.program dir) w := by
  obtain ⟨row, hrow, hproject⟩ := row_of_admits hadmits
  apply safe_ask others_refl
  · intro w' g
    simp only [handle]
    split <;> rfl
  · intro w₁ hinv hrely g _
    simp only [handle]
    cases g.failure with
    | some e => exact safe_fail
    | none =>
      apply safe_orFail_bind
      intro workdir hfound
      cases hfound
      split
      next existing hfind =>
        have hmem : existing ∈ w₁.workdirs := List.mem_of_find?_eq_some hfind
        have hlink : existing.branchId = some job.branch.id := by simpa using List.find?_some hfind
        have hreturns : Returns dir job existing.path w₁ :=
          ⟨⟨existing, hmem, hlink, rfl⟩, hinv.linked existing hmem job.branch.id hlink⟩
        exact safe_pure fun w' hinv' hrely' => hreturns.of_rely hrely' hinv'
      next hnone =>
        apply safe_setUp
        refine ⟨⟨row, hrely.branch.trans hrow, hproject⟩, fun wd hwd hlink => ?_⟩
        exact absurd (decide_eq_true hlink) (List.find?_eq_none.mp hnone wd hwd)

end

/-! ## Runs -/

/-- The assignment is consistent: no path of a project is linked to two branches, and a call that is about to return a
path returns one that is linked to its branch and right for it. -/
structure Consistent (dir : Path) (s : WorktreeSystem) : Prop where
  one : ∀ wd ∈ s.state.workdirs, ∀ wd' ∈ s.state.workdirs, wd.projectId = wd'.projectId → wd.path = wd'.path →
    ∀ branchId branchId', wd.branchId = some branchId → wd'.branchId = some branchId' → branchId = branchId'
  returns : ∀ thread ∈ s.threads, ∀ path, thread.phase = .running (.pure path) → Returns dir thread.job path s.state

theorem admits_setBranchName {job : Job} {w : World} (h : job.admits w = true) (branchId branchName : Text) :
    job.admits (w.setBranchName branchId branchName) = true := by
  obtain ⟨row, hrow, hproject⟩ := row_of_admits h
  rw [World.setBranchName]
  split
  next branch hbranch =>
    rw [Job.admits]
    by_cases hid : job.branch.id = branchId
    · subst hid
      obtain rfl := Option.some.inj (hrow.symm.trans hbranch)
      rw [AList.lookup_insert]
      exact decide_eq_true hproject
    · rw [AList.lookup_insert_ne hid, hrow]
      exact decide_eq_true hproject
  next => exact h

/-- A failed add leaves the rows alone. -/
theorem branches_afterFailedAdd (w : World) (path : Path) (branchName : Text) (effect : AddEffect) :
    (w.afterFailedAdd path branchName effect).branches = w.branches := by
  cases effect <;> rfl

/-- Rows of branches are not removed, and keep their project. -/
theorem admits_handle (job : Job) (w : World) (c : Call) (f : Outcome) (h : job.admits w = true) :
    job.admits (handle w c f).2 = true := by
  -- only the new name of a branch touches the rows
  have hsame {w' : World} (hbranches : w'.branches = w.branches) : job.admits w' = true := by
    rw [Job.admits, hbranches]
    exact h
  cases c with
  | updateBranchName branchId branchName =>
    simp only [handle]
    split
    next => exact h
    next =>
      split
      next => exact h
      next => exact admits_setBranchName h branchId branchName
  | worktreeAdd path branchName newFrom =>
    simp only [handle]
    split
    next =>
      split
      next => exact hsame (branches_afterFailedAdd w path branchName f.effect)
      next => exact hsame rfl
    next => exact h
  | updateProjectRepoBranchName projectId repoId branchName =>
    simp only [handle]
    split
    next => exact h
    next =>
      split
      next => exact hsame rfl
      next => exact h
  | assignWorkdir | createWorkdir =>
    simp only [handle]
    split
    next => exact h
    next =>
      split
      next => exact h
      next => exact hsame rfl
  | branchExists _ => exact h
  | remoteBranchExists _ => exact h
  | pathExists _ => exact h
  | setUpstreamToOrigin _ _ => exact h
  | getWorkdirForBranch _ | listWorktrees _ | fetchPrHeadSha _ | createParent _ | listWorkdirsForProject _ =>
    simp only [handle]
    split <;> exact h

/-- A timely run keeps the assignment consistent. -/
theorem run_assigns_once {dir : Path} {w : World} (hinv : Inv dir w) {events : List WorktreeEvent}
    (htimely : Along (step dir) (Pool.Guarded (Timely dir)) { state := w } events) {s : WorktreeSystem}
    (hrun : run (step dir) { state := w } events = some s) : Consistent dir s := by
  obtain ⟨hinv', hreturns⟩ := Pool.run_safe Rely.refl Rely.trans (fun job w _ hadmits => safe_program hadmits)
    admits_handle hinv htimely hrun
  refine ⟨fun wd hwd wd' hwd' hproject hpath branchId branchId' hlink hlink' => ?_, hreturns⟩
  have hsame : wd = wd' := List.inj_on_of_nodup_map hinv'.paths hwd hwd' (Prod.ext hproject hpath)
  rw [hsame, hlink'] at hlink
  exact (Option.some.inj hlink).symm

/-- A record of the branch `x`. -/
def record (id : Text) (repo : Text) : Branch := ⟨id, ['p'], some repo, ['x'], ['m'], none⟩

/-- The branch `x` is checked out outside the project's directory. -/
def elsewhere : World :=
  { branches := AList.insert ['a'] (record ['a'] ['r']) ∅
    localBranches := [['x']]
    worktrees := AList.insert [['e']] (some ['x']) ∅ }

/-- A call that fails after the name was stored, and another one with the same record. -/
def retried : List WorktreeEvent :=
  [.spawn ⟨record ['a'] ['r'], ['x']⟩, .lock 0] ++ List.replicate 10 (.call 0 {}) ++
    [.call 0 { failure := some [] }, .finish 0, .spawn ⟨record ['a'] ['r'], ['x']⟩, .lock 1] ++ List.replicate 17 (.call 1 {})

theorem run_assigns_once_retried :
    ∃ s, run (step [['w']]) { state := elsewhere } retried = some s ∧
      s.state.workdirs = [⟨0, ['p'], [['w'], "projects".toList, ['p'], ['x', '-', '2']], some ['a']⟩] ∧
      (s.state.branches.lookup ['a']).map (·.branchName) = some ['x', '-', '3'] ∧ Consistent [['w']] s := by
  obtain ⟨s, hrun, hs⟩ := exists_run_of_any
    (show (run (step [['w']]) { state := elsewhere } retried).any
      (fun s => decide (s.state.workdirs = [⟨0, ['p'], [['w'], "projects".toList, ['p'], ['x', '-', '2']], some ['a']⟩] ∧
        (s.state.branches.lookup ['a']).map (·.branchName) = some ['x', '-', '3'])) = true by decide)
  obtain ⟨hworkdirs, hname⟩ := of_decide_eq_true hs
  have hinv : Inv [['w']] elsewhere :=
    ⟨List.nodup_nil, List.nodup_nil, List.forall_mem_nil _, List.forall_mem_nil _⟩
  exact ⟨s, hrun, hworkdirs, hname, run_assigns_once hinv (by decide) hrun⟩

/-- The record has the name `x`, the row the name `y`. -/
def renamed : World := { branches := AList.insert ['a'] { record ['a'] ['r'] with branchName := ['y'] } ∅ }

/-- Two branches with the name `x`, and a free workdir in which it is checked out. -/
def shared : World :=
  { branches := AList.insert ['a'] (record ['a'] ['r']) (AList.insert ['b'] (record ['b'] ['q']) ∅)
    workdirs := [⟨0, ['p'], [['w'], "projects".toList, ['p'], ['x']], none⟩]
    nextWorkdir := 1
    localBranches := [['x']]
    worktrees := AList.insert [['w'], "projects".toList, ['p'], ['x']] (some ['x']) ∅ }

/-- The thread is about to return a wrong path. -/
def wrong (dir : Path) (w : World) (thread : Pool.Thread Call Reply Text Path Job) : Bool :=
  match thread.phase with
  | .running (.pure path) => ¬ Returns dir thread.job path w
  | _ => false

theorem not_consistent {dir : Path} {s : WorktreeSystem} (h : s.threads.any (wrong dir s.state) = true) :
    ¬ Consistent dir s := by
  intro hconsistent
  obtain ⟨thread, hthread, hwrong⟩ := List.any_eq_true.mp h
  rw [wrong] at hwrong
  split at hwrong
  next path hphase => exact of_decide_eq_true hwrong (hconsistent.returns thread hthread path hphase)
  next => cases hwrong

/-- An outdated record gives a worktree with another name than the stored one; two calls take one free workdir, and the
first of them returns a path that is no longer its own. -/
theorem run_inconsistent :
    (∃ s, run (step [['w']]) { state := renamed }
        ([.spawn ⟨record ['a'] ['r'], ['x']⟩, .lock 0] ++ List.replicate 9 (.call 0 {})) = some s ∧ ¬ Consistent [['w']] s) ∧
    ∃ s, run (step [['w']]) { state := shared }
        [.spawn ⟨record ['a'] ['r'], ['x']⟩, .spawn ⟨record ['b'] ['q'], ['x']⟩, .lock 0, .lock 1, .call 0 {}, .call 1 {},
          .call 0 {}, .call 1 {}, .call 0 {}, .call 1 {}, .call 0 {}, .call 1 {}] = some s ∧ ¬ Consistent [['w']] s := by
  constructor
  · obtain ⟨s, hrun, hwrong⟩ := exists_run_of_any
      (show (run (step [['w']]) { state := renamed }
          ([.spawn ⟨record ['a'] ['r'], ['x']⟩, .lock 0] ++ List.replicate 9 (.call 0 {}))).any
        (fun s => s.threads.any (wrong [['w']] s.state)) = true by decide)
    exact ⟨s, hrun, not_consistent hwrong⟩
  · obtain ⟨s, hrun, hwrong⟩ := exists_run_of_any
      (show (run (step [['w']]) { state := shared }
          [.spawn ⟨record ['a'] ['r'], ['x']⟩, .spawn ⟨record ['b'] ['q'], ['x']⟩, .lock 0, .lock 1, .call 0 {}, .call 1 {},
            .call 0 {}, .call 1 {}, .call 0 {}, .call 1 {}, .call 0 {}, .call 1 {}]).any
        (fun s => s.threads.any (wrong [['w']] s.state)) = true by decide)
    exact ⟨s, hrun, not_consistent hwrong⟩

end Builderbot.Staged.Worktrees
