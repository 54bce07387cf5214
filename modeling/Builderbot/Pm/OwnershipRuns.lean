import Builderbot.Pm.Ownership

/-!
# The commands keep the ownership

Every state that a command of `pm` writes is consistent when the one it read was. The calls may give what they
like: a command may fail at each of them, and directories may come and go at any time. `run_owned` follows the
state file through any sequence of commands.
-/

namespace Builderbot.Pm

open Program

open Git (Text)

variable (base : Path)

/-- A state that is written is consistent. -/
def Keeps : Call → Prop
  | .save state => state.Valid base
  | _ => True

/-- A state that is read is consistent. -/
def Gives : (c : Call) → Reply c → Prop
  | .load, reply => ∀ state, reply = some state → state.Valid base
  | _, _ => True

/-- A part of a command that writes only consistent states. -/
abbrev Ok {α : Type} (Q : α → Prop) (x : Command α) : Prop := x.Sound (Keeps base) (Gives base) Q

variable {base} {α β : Type} {Q : α → Prop}

/-- A call, and what is done with any reply that it may get. -/
theorem ok_ask_bind {c : Call} {f : Reply c → Command α} (hc : Keeps base c)
    (hf : ∀ r, Gives base c r → Ok base Q (f r)) : Ok base Q (ask c >>= f) :=
  sound_perform_bind.mpr ⟨hc, hf⟩

theorem ok_exitStatus_bind {c : Call} {status : Reply c → ExitStatus} {f : Bool → Command α} (hc : Keeps base c)
    (hf : ∀ success, Ok base Q (f success)) : Ok base Q (exitStatus c status >>= f) := by
  refine sound_bind.mpr (ok_ask_bind hc fun r _ => ?_)
  split
  · exact hf _
  · trivial

theorem ok_askOk_bind {c : Call} {e : PmError} {success : Reply c → Bool} {f : Unit → Command α}
    (hc : Keeps base c) (hf : Ok base Q (f ())) : Ok base Q (askOk c e success >>= f) := by
  refine sound_bind.mpr (ok_ask_bind hc fun r _ => ?_)
  exact sound_require.mpr fun _ => hf

/-- Only a valid state is written. -/
theorem ok_save {state : State} (h : state.Valid base) : Ok base (fun _ => True) state.save := by
  rw [State.save, askOk]
  refine ok_ask_bind h fun r _ => ?_
  exact sound_require.mpr fun _ => trivial

/-! ## Worktrees -/

/-- Git commands leave the state file alone. -/
theorem checkout_ok (worktree : Path) (branch : Text) : Ok base (fun _ => True) (checkout worktree branch) := by
  rw [checkout]
  refine ok_ask_bind trivial fun _ _ => ok_exitStatus_bind trivial fun success => ?_
  split
  · trivial
  refine ok_exitStatus_bind trivial fun success => ?_
  split
  · trivial
  refine ok_ask_bind trivial fun _ _ => ok_exitStatus_bind trivial fun success => ?_
  exact sound_require.mpr fun _ => trivial

theorem addWorktree_ok (bare worktree : Path) (branch : Text) :
    Ok base (fun _ => True) (addWorktree bare worktree branch) := by
  rw [addWorktree]
  refine ok_ask_bind trivial fun _ _ => ok_exitStatus_bind trivial fun success => ?_
  split
  · trivial
  refine ok_ask_bind trivial fun _ _ => ok_exitStatus_bind trivial fun success => ?_
  exact sound_require.mpr fun _ => trivial

theorem prepareSlot_ok (slot bare : Path) (branch : Text) : Ok base (fun _ => True) (prepareSlot slot bare branch) := by
  rw [prepareSlot]
  refine ok_ask_bind trivial fun _ _ => ?_
  split
  · exact checkout_ok _ _
  · exact addWorktree_ok _ _ _

/-! ## Slots -/

/-- The slot that a search finds is in its place and passes the test. -/
theorem getElem?_of_find? {slots : List Slot} {p : Slot × ℕ → Bool} {slot : Slot} {i : ℕ}
    (h : slots.zipIdx.find? p = some (slot, i)) : slots[i]? = some slot ∧ p (slot, i) = true :=
  ⟨List.mk_mem_zipIdx_iff_getElem?.mp (List.mem_of_find?_eq_some h), List.find?_some h⟩

theorem not_of_find?_none {slots : List Slot} {p : Slot × ℕ → Bool} {slot : Slot} {i : ℕ}
    (h : slots.zipIdx.find? p = none) (hslot : slots[i]? = some slot) : ¬ p (slot, i) = true :=
  List.find?_eq_none.mp h (slot, i) (List.mk_mem_zipIdx_iff_getElem?.mpr hslot)

/-- The project lists the repository and is waiting for a slot of it. -/
structure State.Pending (base : Path) (project repo branch : Text) (state : State) : Prop where
  valid : state.ValidBut base fun project' repo' => project' = project ∧ repo' = repo
  listed : state.listed project repo = some branch
  pooled : ∃ entry, state.repos.lookup repo = some entry ∧ entry.external = false

/-- It has none yet. -/
def State.Slotless (state : State) (project repo : Text) : Prop := ∀ i, ¬ state.Owns project repo i

variable {project repo branch : Text} {state : State}

/-- Slots are added without an owner. -/
theorem ensureSlots_ok (h : state.Pending base project repo branch) :
    Ok base (fun state' => state'.Pending base project repo branch ∧
        ∀ i, state'.Owns project repo i → state.Owns project repo i) (ensureSlots base state repo) := by
  obtain ⟨entry, hentry, hexternal⟩ := h.pooled
  rw [ensureSlots, hentry]
  refine ok_ask_bind trivial fun now _ => ?_
  exact ⟨⟨h.valid.fill now hentry hexternal, h.listed, entry, hentry, hexternal⟩,
    fun i => State.owns_of_fill⟩

/-- A slot that is free or already of the project goes to the project. -/
theorem takeSlot_ok (h : state.Pending base project repo branch) {slot : Slot} {i : ℕ} (entry : RepoEntry)
    (needsCheckout : Bool) (hslot : (state.slots repo)[i]? = some slot) (howner : ∀ p ∈ slot.owner, p = project)
    (hown : ∀ j, state.Owns project repo j → j = i) :
    Ok base (fun state => state.Valid base) (takeSlot state entry repo project branch slot i needsCheckout) := by
  rw [takeSlot]
  refine ok_ask_bind trivial fun now _ => ?_
  have hvalid : (state.setSlot repo i (Slot.take project branch now)).Valid base := by
    refine h.valid.take now hslot h.listed hown (fun project' howner' hne => ?_) fun project' repo' hskip => ?_
    · exact absurd (howner project' howner') hne
    · exact ⟨hskip.2, .inl hskip.1⟩
  split
  · exact (prepareSlot_ok _ _ _).bind fun _ _ => hvalid
  · exact hvalid

/-- A slot is acquired, or the project has none of the repository and evicts. -/
theorem acquireSlot_ok (h : state.Pending base project repo branch) :
    Ok base (fun (state, result) =>
        match result with
        | .acquired _ => state.Valid base
        | .needsEviction _ _ => state.Pending base project repo branch ∧ state.Slotless project repo)
      (acquireSlot base state repo project branch) := by
  rw [acquireSlot]
  refine (ensureSlots_ok h).bind fun state ⟨h, _⟩ => ?_
  obtain ⟨entry, hentry, hexternal⟩ := h.pooled
  rw [hentry]
  dsimp only
  split
  case h_1 slot i hfind =>
    obtain ⟨hslot, howner⟩ := getElem?_of_find? hfind
    replace howner := of_decide_eq_true howner
    refine Sound.bind (takeSlot_ok h entry _ hslot ?_ ?_) fun state hvalid => hvalid
    · intro p hp
      rw [howner] at hp
      exact (Option.some.inj hp).symm
    · exact fun j hj => h.valid.owns_one project repo j i hj ⟨slot, hslot, howner⟩
  case h_2 hnone =>
    have hslotless : state.Slotless project repo := by
      rintro i ⟨slot, hslot, howner⟩
      exact not_of_find?_none hnone hslot (decide_eq_true howner)
    split
    case h_1 slot i hfind =>
      obtain ⟨hslot, howner⟩ := getElem?_of_find? hfind
      replace howner := of_decide_eq_true howner
      refine Sound.bind (takeSlot_ok h entry _ hslot ?_ ?_) fun state hvalid => hvalid
      · intro p hp
        rw [howner] at hp
        cases hp
      · exact fun j hj => absurd hj (hslotless j)
    case h_2 =>
      split
      · trivial
      · exact ⟨h, hslotless⟩

/-- The repository is taken off the list of the owner that is evicted. -/
theorem evictOwner_ok (state : State) (owner : Option Text) :
    Ok base (fun state' => state' = owner.elim state (state.unlistRepo · repo)) (evictOwner state repo owner) := by
  cases owner with
  | none => exact rfl
  | some owner =>
    rw [evictOwner]
    refine ok_ask_bind trivial fun exists' _ => ?_
    split
    · exact ok_ask_bind trivial fun _ _ => rfl
    · exact rfl

/-- The evicted slot goes to a project that has no slot of the repository. -/
theorem executeEviction_ok (h : state.Pending base project repo branch) (hslotless : state.Slotless project repo)
    (evictIdx : ℕ) :
    Ok base (fun result => result.1.Valid base) (executeEviction state repo evictIdx project branch) := by
  rw [executeEviction]
  split
  case h_2 => trivial
  case h_1 entry slot hentry hslot =>
    refine (prepareSlot_ok _ _ _).bind fun _ _ => (evictOwner_ok state slot.owner).bind ?_
    rintro _ rfl
    refine ok_ask_bind trivial fun now _ => ?_
    rcases howner : slot.owner with _ | owner
    · refine h.valid.take now hslot h.listed (fun j hj => absurd hj (hslotless j)) ?_ ?_
      · intro project' howner'
        rw [howner] at howner'
        cases howner'
      · exact fun project' repo' hskip => ⟨hskip.2, .inl hskip.1⟩
    · have hne : owner ≠ project := by
        rintro rfl
        exact hslotless evictIdx ⟨slot, hslot, howner⟩
      refine (h.valid.unlist owner repo).take now (by rwa [State.slots_unlistRepo]) ?_ ?_ ?_ ?_
      · rw [State.listed_unlistRepo, if_neg fun heq => hne heq.1.symm]
        exact h.listed
      · rintro j ⟨slot', hslot', howner'⟩
        rw [State.slots_unlistRepo] at hslot'
        exact absurd ⟨slot', hslot', howner'⟩ (hslotless j)
      · intro project' howner' _
        rw [howner, Option.some.injEq] at howner'
        rw [State.listed_unlistRepo, if_pos ⟨howner'.symm, rfl⟩]
      · rintro project' repo' (⟨rfl, rfl⟩ | ⟨rfl, rfl⟩)
        · exact ⟨rfl, .inl rfl⟩
        · exact ⟨rfl, .inr howner⟩

/-- A slot that is added goes to the project. -/
theorem growAndAcquire_ok (h : state.Pending base project repo branch) (hslotless : state.Slotless project repo) :
    Ok base (fun result => result.1.Valid base) (growAndAcquire base state repo project branch) := by
  obtain ⟨entry, hentry, hexternal⟩ := h.pooled
  rw [growAndAcquire, hentry]
  dsimp only
  have hgrown : State.Pending base project repo branch
      { state with repos := state.repos.insert repo { entry with maxSlots := entry.maxSlots + 1 } } :=
    ⟨h.valid.grow hentry, h.listed, _, AList.lookup_insert _, hexternal⟩
  refine (ensureSlots_ok hgrown).bind fun state' ⟨h', howns⟩ => ?_
  split
  · trivial
  case h_2 slot i hfind =>
    obtain ⟨hslot, howner⟩ := getElem?_of_find? hfind
    replace howner := of_decide_eq_true howner
    refine Sound.bind (takeSlot_ok h' _ _ hslot ?_ ?_) fun state hvalid => hvalid
    · intro p hp
      rw [howner] at hp
      cases hp
    · exact fun j hj => absurd (howns j hj) (hslotless j)

/-- Whatever is chosen in the menu. -/
theorem interactiveEvictionMenu_ok (h : state.Pending base project repo branch)
    (hslotless : state.Slotless project repo) (candidates : List EvictionCandidate) :
    Ok base (fun result => result.1.Valid base)
      (interactiveEvictionMenu base state repo candidates project branch) := by
  rw [interactiveEvictionMenu]
  refine ok_ask_bind trivial fun selection _ => ?_
  split
  · trivial
  split
  · exact executeEviction_ok h hslotless _
  · split
    · exact growAndAcquire_ok h hslotless
    · trivial

/-- Every way to get a slot when none is free. -/
theorem resolveEviction_ok (h : state.Pending base project repo branch) (hslotless : state.Slotless project repo)
    (candidates : List EvictionCandidate) (currentMaxSlots : ℕ) (opts : AddConflictOpts) :
    Ok base (fun result => result.1.Valid base)
      (resolveEviction base state repo candidates currentMaxSlots project branch opts) := by
  rw [resolveEviction]
  split
  · exact growAndAcquire_ok h hslotless
  split
  · split
    · exact executeEviction_ok h hslotless _
    · trivial
  · refine ok_ask_bind trivial fun terminal _ => ?_
    split
    · exact interactiveEvictionMenu_ok h hslotless candidates
    · trivial

/-! ## Commands -/

/-- The link is made before the state is written. -/
theorem linkAndSave_ok (h : state.Valid base) (project repo : Text) (target : Path) :
    Ok base (fun _ => True) (linkAndSave state project repo target) := by
  rw [linkAndSave]
  refine ok_askOk_bind trivial (ok_ask_bind trivial fun exists' _ => ?_)
  split
  · exact ok_ask_bind trivial fun _ _ => ok_askOk_bind trivial (ok_save h)
  · exact ok_askOk_bind trivial (ok_save h)

/-- A slot for the project, with an eviction if there has to be one. -/
theorem slotFor_ok (h : state.Pending base project repo branch) (opts : AddConflictOpts) :
    Ok base (fun result => result.1.Valid base) (slotFor base state repo project branch opts) := by
  rw [slotFor]
  refine (acquireSlot_ok h).bind ?_
  rintro ⟨state', result⟩ hresult
  cases result with
  | acquired index => exact hresult
  | needsEviction candidates currentMaxSlots =>
    exact resolveEviction_ok hresult.1 hresult.2 candidates currentMaxSlots opts

/-- A project that lists a repository waits for a slot of it. -/
theorem State.Valid.pending (h : state.Valid base) {p : Project} (hp : state.projects.lookup project = some p)
    (hpooled : ∃ entry, state.repos.lookup repo = some entry ∧ entry.external = false) (branch : Text) :
    (state.listRepo project repo branch).Pending base project repo branch := by
  refine ⟨h.listPooled hp, ?_, by rwa [State.repos_listRepo]⟩
  rw [State.listed_listRepo hp, if_pos ⟨rfl, rfl⟩]

/-- The repository is listed first, so that the slot has an owner that lists it. -/
theorem addToPool_ok (h : state.Valid base) {p : Project} (hp : state.projects.lookup project = some p)
    (hpooled : ∃ entry, state.repos.lookup repo = some entry ∧ entry.external = false) (branch : Text)
    (opts : AddConflictOpts) : Ok base (fun _ => True) (addToPool base state project repo branch opts) := by
  rw [addToPool]
  refine (slotFor_ok (h.pending hp hpooled branch) opts).bind ?_
  rintro ⟨state', index⟩ hvalid
  dsimp only
  split
  · exact linkAndSave_ok hvalid _ _ _
  · trivial

/-- Names of repositories have no slash, so that slots of different ones are different directories. -/
theorem slash_notMem_existingName (repoInput : Text) : '/' ∉ existingName repoInput := by
  rw [existingName]
  split
  · exact slash_notMem_repoNameFromUrl repoInput
  case isFalse hsimple =>
    intro hmem
    exact hsimple (by rw [List.contains_iff_mem.mpr hmem]; rfl)

/-- A repository that has to be cloned is not in the state. -/
theorem resolveRepo_needsClone {repoInput : Text} (h : (resolveRepo state repoInput).needsClone = true) :
    state.repos.lookup (resolveRepo state repoInput).name = none ∧ '/' ∉ (resolveRepo state repoInput).name := by
  have hurl : ∀ url, (state.repos.lookup (repoNameFromUrl url)).isNone = true →
      state.repos.lookup (repoNameFromUrl url) = none ∧ '/' ∉ repoNameFromUrl url := fun url hnone =>
    ⟨Option.isNone_iff_eq_none.mp hnone, slash_notMem_repoNameFromUrl url⟩
  generalize hresolved : resolveRepo state repoInput = resolved at h ⊢
  rw [resolveRepo] at hresolved
  split at hresolved
  · subst hresolved
    cases h
  split at hresolved
  · subst hresolved
    exact hurl _ h
  split at hresolved
  · subst hresolved
    exact hurl _ h
  · subst hresolved
    cases h

theorem existingCheckout_ok (extPath : Path) : Ok base (fun _ => True) (existingCheckout extPath) := by
  rw [existingCheckout]
  refine ok_ask_bind trivial fun canonical _ => ?_
  split
  · trivial
  · exact ok_ask_bind trivial fun _ _ => sound_require_bind.mpr fun _ => trivial

theorem existingUrl_ok (canonical : Path) : Ok base (fun _ => True) (existingUrl canonical) :=
  ok_ask_bind trivial fun _ _ => trivial

theorem cloneBare_ok (url : Text) (dest : Path) : Ok base (fun _ => True) (cloneBare url dest) := by
  rw [cloneBare]
  refine ok_ask_bind trivial fun cloned _ => ?_
  split
  · trivial
  split
  · exact ok_ask_bind trivial fun _ _ => sound_require_bind.mpr fun _ => trivial
  · trivial

/-- A checkout that stays where it is gets no slots. -/
theorem registerExternal_ok (h : state.Valid base) (hslash : '/' ∉ repo) (url : Text) (canonical : Path) :
    Ok base (fun state' => state'.Valid base ∧ state'.projects = state.projects ∧
        ∃ entry, state'.repos.lookup repo = some entry ∧ entry.external = true)
      (registerExternal state repo url canonical) := by
  rw [registerExternal]
  split
  case h_1 hnone => exact ⟨h.insertRepo hnone hslash, rfl, _, AList.lookup_insert _, rfl⟩
  case h_2 entry hentry => exact sound_require_bind.mpr fun hexternal => ⟨h, rfl, entry, hentry, hexternal⟩

/-- A checkout that is to have worktrees is registered like a clone. -/
theorem registerCheckout_ok (h : state.Valid base) (hslash : '/' ∉ repo) (url : Text) (canonical : Path) :
    Ok base (fun state' => state'.Valid base ∧ state'.projects = state.projects ∧
        ∃ entry, state'.repos.lookup repo = some entry ∧ entry.external = false)
      (registerCheckout state repo url canonical) := by
  rw [registerCheckout]
  split
  case h_1 hnone =>
    have hvalid : ∀ entry, State.Valid base { state with repos := state.repos.insert repo entry } :=
      fun entry => h.insertRepo hnone hslash
    exact (ok_save (hvalid _)).bind fun _ _ => ⟨hvalid _, rfl, _, AList.lookup_insert _, rfl⟩
  case h_2 entry hentry =>
    refine sound_require_bind.mpr fun hexternal => ⟨h, rfl, entry, hentry, ?_⟩
    rwa [Bool.not_eq_true'] at hexternal

theorem addExisting_ok (h : state.Valid base) {p : Project} (hp : state.projects.lookup project = some p)
    (repoInput : Text) (extPath : Path) :
    Ok base (fun _ => True) (addExisting state project repoInput extPath) := by
  rw [addExisting]
  refine (existingCheckout_ok extPath).bind fun canonical _ => (existingUrl_ok canonical).bind fun url _ => ?_
  refine (registerExternal_ok h (slash_notMem_existingName repoInput) url canonical).bind ?_
  rintro state' ⟨hvalid, hprojects, entry, hentry, hexternal⟩
  exact linkAndSave_ok (hvalid.listExternal (hprojects ▸ hp) hentry hexternal) _ _ _

theorem addExistingWorktree_ok (h : state.Valid base) {p : Project} (hp : state.projects.lookup project = some p)
    (user repoInput : Text) (branchOverride : Option Text) (extPath : Path) (opts : AddConflictOpts) :
    Ok base (fun _ => True)
      (addExistingWorktree base state user project repoInput branchOverride extPath opts) := by
  rw [addExistingWorktree]
  refine (existingCheckout_ok extPath).bind fun canonical _ => (existingUrl_ok canonical).bind fun url _ => ?_
  refine (registerCheckout_ok h (slash_notMem_existingName repoInput) url canonical).bind ?_
  rintro state' ⟨hvalid, hprojects, hpooled⟩
  exact addToPool_ok hvalid (hprojects ▸ hp) hpooled _ opts

/-- A project that is not there yet is made without repositories. -/
theorem ensureProject_ok (h : state.Valid base) (project : Text) :
    Ok base (fun state' => state'.Valid base ∧ ∃ p, state'.projects.lookup project = some p)
      (ensureProject state project) := by
  rw [ensureProject]
  split
  case isTrue hsome => exact ⟨h, Option.isSome_iff_exists.mp hsome⟩
  case isFalse hnone =>
    rw [Bool.not_eq_true, Option.isSome_eq_false_iff, Option.isNone_iff_eq_none] at hnone
    refine ok_ask_bind trivial fun _ _ => sound_require_bind.mpr fun _ => ?_
    have hvalid := h.insertProject hnone
    exact (ok_save hvalid).bind fun _ _ => ⟨hvalid, _, AList.lookup_insert _⟩

/-- A repository that is cloned is registered without slots. -/
theorem ensureCloned_ok (h : state.Valid base) (repoInput : Text)
    (hpooled : ∀ entry, state.repos.lookup (resolveRepo state repoInput).name = some entry → entry.external = false) :
    Ok base (fun state' => state'.Valid base ∧ state'.projects = state.projects ∧
        ∃ entry, state'.repos.lookup (resolveRepo state repoInput).name = some entry ∧ entry.external = false)
      (ensureCloned base state repoInput (resolveRepo state repoInput)) := by
  rw [ensureCloned]
  split
  case isTrue hclone =>
    obtain ⟨hnone, hslash⟩ := resolveRepo_needsClone hclone
    refine (cloneBare_ok _ _).bind fun url _ => ?_
    have hvalid : ∀ entry, State.Valid base
        { state with repos := state.repos.insert (resolveRepo state repoInput).name entry } :=
      fun entry => h.insertRepo hnone hslash
    exact (ok_save (hvalid _)).bind fun _ _ => ⟨hvalid _, rfl, _, AList.lookup_insert _, rfl⟩
  case isFalse =>
    refine sound_require_bind.mpr fun hsome => ?_
    obtain ⟨entry, hentry⟩ := Option.isSome_iff_exists.mp hsome
    exact ⟨h, rfl, entry, hentry, hpooled entry hentry⟩

/-- `add` for a repository with slots. -/
theorem addPooled_ok (h : state.Valid base) {p : Project} (hp : state.projects.lookup project = some p)
    (user repoInput : Text) (branchOverride : Option Text) (opts : AddConflictOpts)
    (hpooled : ∀ entry, state.repos.lookup (resolveRepo state repoInput).name = some entry → entry.external = false) :
    Ok base (fun _ => True)
      (addPooled base state user project repoInput branchOverride opts (resolveRepo state repoInput)) := by
  rw [addPooled]
  refine (ensureCloned_ok h repoInput hpooled).bind ?_
  rintro state' ⟨hvalid, hprojects, hentry⟩
  exact addToPool_ok hvalid (hprojects ▸ hp) hentry _ opts

/-- What is read was valid when it was written. -/
theorem loadOrErr_ok : Ok base (fun state => state.Valid base) loadOrErr := by
  refine ok_ask_bind trivial fun reply hreply => ?_
  split
  case h_1 state => exact hreply state rfl
  case h_2 => trivial

/-- All variants of `add`. -/
theorem add_ok (args : AddArgs) : Ok base (fun _ => True) (add base args) := by
  rw [add]
  refine loadOrErr_ok.bind fun state h => (ensureProject_ok h args.project).bind ?_
  rintro state' ⟨hvalid, p, hp⟩
  split
  case h_1 extPath =>
    split
    · exact addExistingWorktree_ok hvalid hp _ _ _ _ _
    · exact addExisting_ok hvalid hp _ _
  case h_2 =>
    dsimp only
    split
    case h_1 entry hentry =>
      split
      case isTrue =>
        split
        · exact addExisting_ok hvalid hp _ _
        · trivial
      case isFalse hpooled =>
        refine addPooled_ok hvalid hp _ _ _ _ fun entry' hentry' => ?_
        rw [hentry] at hentry'
        cases hentry'
        rwa [Bool.not_eq_true] at hpooled
    case h_2 hnone =>
      refine addPooled_ok hvalid hp _ _ _ _ fun entry' hentry' => ?_
      rw [hnone] at hentry'
      cases hentry'

theorem new_ok (name : Text) : Ok base (fun _ => True) (new name) := by
  rw [new]
  refine loadOrErr_ok.bind fun state h => ?_
  have hdrop : Ok base (fun state' => state'.Valid base ∧ state'.projects.lookup name = none)
      (dropOrphan state name) := by
    rw [dropOrphan]
    split
    case isTrue =>
      refine ok_ask_bind trivial fun _ _ => sound_require_bind.mpr fun _ => ?_
      have hvalid := h.dropProject name
      exact (ok_save hvalid).bind fun _ _ => ⟨hvalid, AList.lookup_erase _ _⟩
    case isFalse hnone =>
      rw [Bool.not_eq_true, Option.isSome_eq_false_iff, Option.isNone_iff_eq_none] at hnone
      exact ⟨h, hnone⟩
  refine hdrop.bind ?_
  rintro state' ⟨hvalid, hnone⟩
  exact ok_askOk_bind trivial (ok_save (hvalid.insertProject hnone))

/-- Links are removed without a change of the state. -/
theorem removeLinks_ok (project : Text) (repos : List Text) : Ok base (fun _ => True) (removeLinks project repos) := by
  induction repos with
  | nil => trivial
  | cons repo repos ih =>
    rw [removeLinks]
    refine ok_ask_bind trivial fun exists' _ => ?_
    split
    · exact ok_ask_bind trivial fun _ _ => ih
    · exact ih

/-- A project that the state does not have owns no slot. -/
theorem State.Valid.removeProject_of_none {name : Text} (h : state.Valid base)
    (hnone : state.projects.lookup name = none) : (state.removeProject name).Valid base := by
  have hprojects : state.projects.erase name = state.projects :=
    AList.ext (List.kerase_of_notMem_keys fun hmem => AList.lookup_eq_none.mp hnone (AList.mem_keys.mpr hmem))
  show State.Valid base { state with projects := state.projects.erase name }
  rw [hprojects]
  exact h

/-- The slots of a project are given up when it is removed. -/
theorem rm_ok (name : Text) : Ok base (fun _ => True) (rm name) := by
  rw [rm]
  refine loadOrErr_ok.bind fun state h => ?_
  have hrelease : Ok base (fun state' => (state'.removeProject name).Valid base) (releaseListed state name) := by
    rw [releaseListed]
    split
    · exact (removeLinks_ok _ _).bind fun _ _ => h.dropProject name
    case h_2 hnone => exact h.removeProject_of_none hnone
  refine hrelease.bind fun state' hvalid => ok_ask_bind trivial fun dir _ => ?_
  split
  · exact ok_askOk_bind trivial (ok_save hvalid)
  · exact ok_save hvalid

theorem orphans_ok (names : List Text) : Ok base (fun _ => True) (orphans names) := by
  induction names with
  | nil => trivial
  | cons name names ih =>
    rw [orphans]
    exact ok_ask_bind trivial fun dir _ => ih.bind fun _ _ => trivial

/-- Slots of projects without a directory are given up. -/
theorem State.Valid.dropProjects (h : state.Valid base) (names : List Text) :
    (names.foldl State.dropProject state).Valid base := by
  induction names generalizing state with
  | nil => exact h
  | cons name names ih => exact ih (h.dropProject name)

/-- `status` writes the state only to drop projects. -/
theorem status_ok : Ok base (fun _ => True) status := by
  rw [status]
  refine loadOrErr_ok.bind fun state h => (orphans_ok _).bind fun orphaned _ => ?_
  split
  · trivial
  · exact ok_save (h.dropProjects orphaned)

/-- Every command writes valid states only. -/
theorem program_ok (c : PmCommand) : Ok base (fun _ => True) (c.program base) := by
  cases c with
  | new name => exact new_ok name
  | add args => exact add_ok args
  | rm name => exact rm_ok name
  | status => exact status_ok

/-! ## Runs -/

/-- What is at the place of `state.json`. -/
inductive StateFile where
  | missing
  /-- A file that cannot be parsed. -/
  | broken
  | state (state : State)
deriving DecidableEq

def StateFile.load : StateFile → Option State
  | .state state => some state
  | .missing | .broken => none

/-- What is loaded is what the file holds. -/
theorem StateFile.eq_state_of_load {file : StateFile} {state : State} (h : file.load = some state) :
    file = .state state := by
  cases file with
  | missing | broken => cases h
  | state state' =>
    cases h
    rfl

/-- The state file and the commands that run, each as what is left of it. -/
structure Processes where
  file : StateFile := .missing
  running : List (Command Unit) := []

inductive ProcessEvent where
  /-- A command of `main`, which makes a new workspace if there is none. -/
  | start (command : PmCommand)
  /-- The next call of a command. A write that fails may leave the file in pieces. -/
  | reply (i : ℕ) (replies : (c : Call) → Reply c) (torn : Bool)
  /-- A command is killed. -/
  | kill (i : ℕ)

/-- The reply to a call and the state file after it. All but the state file is up to the replies. -/
def StateFile.serve (file : StateFile) (replies : (c : Call) → Reply c) (torn : Bool) :
    (c : Call) → Reply c × StateFile
  | .load => (if Option.isSome (replies .load) then file.load else none, file)
  | .save state =>
    if replies (.save state) = true then (true, .state state) else (false, if torn then .broken else file)
  | c => (replies c, file)

namespace Processes

variable (base)

/-- One process goes on, or is killed, or another one starts. -/
def step (s : Processes) : ProcessEvent → Option Processes
  | .start command =>
    some { s with
      file := match s.file with
        | .missing => .state {}
        | file => file
      running := s.running ++ [command.program base] }
  | .reply i replies torn =>
    match s.running[i]? with
    | some (.call c next) =>
      let (r, file) := s.file.serve replies torn c
      some { s with file, running := s.running.modify i fun _ => next r }
    | _ => none
  | .kill i => some { s with running := s.running.eraseIdx i }

variable {base}

/-- The file is consistent and the commands will leave it so. -/
structure Inv (base : Path) (s : Processes) : Prop where
  file : ∀ state, s.file = .state state → state.Valid base
  running : ∀ x ∈ s.running, Ok base (fun _ => True) x

/-- A state without projects and repositories. -/
theorem valid_new : State.Valid base {} where
  slash _ _ h := by cases h
  pooled _ _ _ h := by cases h
  indexed _ _ _ h := by cases h
  owns_one _ _ _ _ := fun ⟨_, h, _⟩ => by cases h
  owner_lists _ _ _ _ h := by cases h
  listed_owns _ _ _ h := by cases h

/-- The file is valid after each call if it was before. -/
theorem serve_ok {file : StateFile} {replies : (c : Call) → Reply c} {torn : Bool} {c : Call}
    (hfile : ∀ state, file = .state state → state.Valid base) (hc : Keeps base c) :
    Gives base c (file.serve replies torn c).1 ∧
      ∀ state, (file.serve replies torn c).2 = .state state → state.Valid base := by
  cases c with
  | load =>
    refine ⟨fun state hstate => ?_, hfile⟩
    change (if Option.isSome (replies .load) then file.load else none) = some state at hstate
    split at hstate
    · exact hfile state (StateFile.eq_state_of_load hstate)
    · cases hstate
  | save state' =>
    refine ⟨trivial, fun state hstate => ?_⟩
    rw [StateFile.serve] at hstate
    split at hstate
    · cases hstate
      exact hc
    · cases torn with
      | true => cases hstate
      | false => exact hfile state hstate
  | _ => exact ⟨trivial, hfile⟩

/-- Any process may be the next, since each keeps the file valid by itself. -/
theorem Inv.step {s t : Processes} (h : s.Inv base) {e : ProcessEvent} (hstep : s.step base e = some t) :
    t.Inv base := by
  cases e with
  | start command =>
    cases hstep
    constructor
    · intro state hstate
      cases hfile : s.file with
      | missing =>
        simp only [hfile] at hstate
        cases hstate
        exact valid_new
      | broken =>
        simp only [hfile] at hstate
        cases hstate
      | state state' =>
        simp only [hfile] at hstate
        cases hstate
        exact h.file state hfile
    · intro x hx
      rcases List.mem_append.mp hx with hx | hx
      · exact h.running x hx
      · obtain rfl := List.mem_singleton.mp hx
        exact program_ok command
  | reply i replies torn =>
    simp only [Processes.step] at hstep
    split at hstep
    case h_1 c next hget =>
      cases hstep
      -- what is running is sound for the file as it is, whoever wrote it last
      have hsound : Ok base (fun _ => True) (.call c next) := h.running _ (List.mem_of_getElem? hget)
      obtain ⟨hreply, hfile⟩ := @serve_ok base s.file replies torn c h.file hsound.1
      refine ⟨hfile, fun x hx => ?_⟩
      rcases mem_modify hget hx with hx | rfl
      · exact h.running x hx
      · exact hsound.2 _ hreply
    case h_2 => cases hstep
  | kill i =>
    cases hstep
    exact ⟨h.file, fun x hx => h.running x (List.mem_of_mem_eraseIdx hx)⟩

/-- In every run of commands, also of several at a time, every state that is written has its ownership right. -/
theorem run_owned {events : List ProcessEvent} {s : Processes} {state : State}
    (hrun : run (Processes.step base) {} events = some s) (hfile : s.file = .state state) : state.Owned := by
  have hnew : Inv base {} := ⟨fun _ hstate => (by cases hstate), fun _ hx => absurd hx List.not_mem_nil⟩
  exact ((run_invariant (fun _ _ _ hs hstep => Inv.step hs hstep) hnew hrun).file state hfile).owned

/-- Every call succeeds, and nothing is there yet. -/
def freshReplies : (c : Call) → Reply c
  | .load => some {}
  | .removeLink _ _ | .fetch _ => ()
  | .canonicalize path => some path
  | .remoteUrl _ | .defaultBranch _ | .menu _ => none
  | .checkout _ _ | .checkoutNew _ _ _ | .worktreeAdd _ _ _ | .worktreeAddNew _ _ _ _ => some true
  | .now => 0
  | .projectDirExists _ | .linkExists _ _ | .pathExists _ | .stdinIsTerminal => false
  | .save _ | .createProjectDir _ | .removeProjectDir _ | .symlink _ _ _ | .hasGitDir _ | .tryCloneBare _ _ => true

/-- A project gets a repository that is cloned. -/
theorem run_owned_added :
    ∃ s state, run (Processes.step [['w']]) {}
        ([.start (.new ['p'])] ++ List.replicate 3 (.reply 0 freshReplies false) ++
          [.start (.add { user := ['u'], project := ['p'], repoInput := "https://h/r".toList })] ++
          List.replicate 12 (.reply 1 freshReplies false)) = some s ∧ s.file = .state state ∧
      state.listed ['p'] ['r'] = some ['u', '/', 'p'] ∧ state.Owned := by
  obtain ⟨s, hrun, hs⟩ : ∃ s, run (Processes.step [['w']]) {}
        ([.start (.new ['p'])] ++ List.replicate 3 (.reply 0 freshReplies false) ++
          [.start (.add { user := ['u'], project := ['p'], repoInput := "https://h/r".toList })] ++
          List.replicate 12 (.reply 1 freshReplies false)) = some s ∧
      (s.file.load.any fun state => state.listed ['p'] ['r'] = some ['u', '/', 'p']) = true :=
    exists_run_of_any (by decide)
  rcases hfile : s.file with _ | _ | state
  · rw [hfile] at hs
    cases hs
  · rw [hfile] at hs
    cases hs
  · rw [hfile] at hs
    exact ⟨s, state, hrun, hfile, of_decide_eq_true hs, run_owned hrun hfile⟩

end Processes

end Builderbot.Pm
