import Builderbot.Lib.Run
import Builderbot.Pm.Commands

/-!
# Who owns a slot

The state of `pm` says twice who owns a slot: the slot has its owner, and the project lists the repository with
its branch. `Owned` is what both have to say. The commands keep it in every state that they write, whatever
the calls of `git` and of the file system give.

Within `add`, the state that the command holds lists the repository before the project has a slot. `ValidBut`
leaves out the pairs of a project and a repository for which the state is not consistent yet.
-/

namespace Builderbot.Pm

open Git (Text)

namespace State

variable (base : Path) (state : State)

/-- The project owns the slot. -/
def Owns (project repo : Text) (i : ℕ) : Prop :=
  ∃ slot, (state.slots repo)[i]? = some slot ∧ slot.owner = some project

/-- The branch of the repository in the project, if the project lists it. -/
def listed (project repo : Text) : Option Text :=
  (state.projects.lookup project).bind fun p => p.repos.lookup repo

/-- The two records of the ownership agree. -/
structure Owned : Prop where
  slots_le : ∀ repo (i : ℕ) slot, (state.slots repo)[i]? = some slot →
    ∃ entry, state.repos.lookup repo = some entry ∧ (state.slots repo).length ≤ entry.maxSlots
  index_eq : ∀ repo (i : ℕ) slot, (state.slots repo)[i]? = some slot → slot.index = i
  path_inj : ∀ repo repo' (i j : ℕ) slot slot', (state.slots repo)[i]? = some slot →
    (state.slots repo')[j]? = some slot' → slot.path = slot'.path → repo = repo' ∧ i = j
  owns_one : ∀ project repo i j, state.Owns project repo i → state.Owns project repo j → i = j
  owner_lists : ∀ repo (i : ℕ) slot project, (state.slots repo)[i]? = some slot → slot.owner = some project →
    ∃ branch, slot.branch = some branch ∧ state.listed project repo = some branch
  listed_owns : ∀ project repo branch, state.listed project repo = some branch →
    ∃ entry, state.repos.lookup repo = some entry ∧ (entry.external = false → ∃ i, state.Owns project repo i)

/-- The state is consistent, except for some pairs of a project and a repository. -/
structure ValidBut (skip : Text → Text → Prop) : Prop where
  slash : ∀ repo entry, state.repos.lookup repo = some entry → '/' ∉ repo
  pooled : ∀ repo (i : ℕ) slot, (state.slots repo)[i]? = some slot →
    ∃ entry, state.repos.lookup repo = some entry ∧ entry.external = false ∧
      (state.slots repo).length ≤ entry.maxSlots
  indexed : ∀ repo (i : ℕ) slot, (state.slots repo)[i]? = some slot → slot.index = i ∧ slot.path = slotPath base repo i
  owns_one : ∀ project repo i j, state.Owns project repo i → state.Owns project repo j → i = j
  owner_lists : ∀ repo (i : ℕ) slot project, (state.slots repo)[i]? = some slot → slot.owner = some project →
    ¬ skip project repo → ∃ branch, slot.branch = some branch ∧ state.listed project repo = some branch
  listed_owns : ∀ project repo branch, state.listed project repo = some branch → ¬ skip project repo →
    ∃ entry, state.repos.lookup repo = some entry ∧ (entry.external = false → ∃ i, state.Owns project repo i)

abbrev Valid : Prop := state.ValidBut base fun _ _ => False

variable {base state} {skip : Text → Text → Prop}

theorem Valid.owned (h : state.Valid base) : state.Owned where
  slots_le repo i slot hslot := by
    obtain ⟨entry, hentry, -, hle⟩ := h.pooled repo i slot hslot
    exact ⟨entry, hentry, hle⟩
  index_eq repo i slot hslot := (h.indexed repo i slot hslot).1
  path_inj repo repo' i j slot slot' hslot hslot' hpath := by
    rw [(h.indexed repo i slot hslot).2, (h.indexed repo' j slot' hslot').2] at hpath
    exact slotPath_inj hpath
  owns_one := h.owns_one
  owner_lists repo i slot project hslot howner := h.owner_lists repo i slot project hslot howner not_false
  listed_owns project repo branch hlisted := h.listed_owns project repo branch hlisted not_false

/-! ## What the changes do to the parts -/

theorem slots_setSlots (repo repo' : Text) (slots : List Slot) :
    (state.setSlots repo slots).slots repo' = if repo' = repo then slots else state.slots repo' := by
  rw [State.slots, setSlots]
  by_cases h : repo' = repo
  · subst h
    rw [if_pos rfl]
    show (AList.lookup repo' (state.pool.insert repo' slots)).getD [] = slots
    rw [AList.lookup_insert]
    rfl
  · rw [if_neg h]
    show (AList.lookup repo' (state.pool.insert repo slots)).getD [] = state.slots repo'
    rw [AList.lookup_insert_ne h]
    rfl

/-- One slot has changed. -/
theorem getElem?_setSlot (repo repo' : Text) (i j : ℕ) (f : Slot → Slot) :
    ((state.setSlot repo i f).slots repo')[j]? =
      if repo' = repo ∧ j = i then ((state.slots repo')[j]?).map f else (state.slots repo')[j]? := by
  rw [setSlot, slots_setSlots]
  by_cases h : repo' = repo
  · subst h
    rw [if_pos rfl, List.getElem?_modify]
    by_cases hij : j = i
    · subst hij
      simp
    · have hji : ¬ i = j := fun h => hij h.symm
      simp [hij, hji]
  · rw [if_neg h, if_neg fun hand => h hand.1]

theorem length_setSlot (repo repo' : Text) (i : ℕ) (f : Slot → Slot) :
    ((state.setSlot repo i f).slots repo').length = (state.slots repo').length := by
  rw [setSlot, slots_setSlots]
  split
  case isTrue h => rw [h, List.length_modify]
  case isFalse => rfl

theorem listed_insert {projects : Table Text Project} (name : Text) (p : Project) (project repo : Text) :
    listed { state with projects := projects.insert name p } project repo =
      if project = name then p.repos.lookup repo else listed { state with projects } project repo := by
  rw [listed]
  by_cases h : project = name
  · subst h
    rw [if_pos rfl]
    show (AList.lookup project (projects.insert project p)).bind _ = _
    rw [AList.lookup_insert]
    rfl
  · rw [if_neg h]
    show (AList.lookup project (projects.insert name p)).bind _ = _
    rw [AList.lookup_insert_ne h]
    rfl

/-- The repository of a project is listed with a new branch. -/
theorem listed_listRepo {p : Project} {project : Text} (hp : state.projects.lookup project = some p)
    (repo branch project' repo' : Text) :
    (state.listRepo project repo branch).listed project' repo' =
      if project' = project ∧ repo' = repo then some branch else state.listed project' repo' := by
  rw [listRepo, hp]
  show listed { state with projects := state.projects.insert project _ } project' repo' = _
  rw [listed_insert]
  by_cases hproject : project' = project
  · subst hproject
    rw [if_pos rfl]
    by_cases hrepo : repo' = repo
    · subst hrepo
      rw [if_pos ⟨rfl, rfl⟩]
      exact AList.lookup_insert _
    · rw [if_neg fun h => hrepo h.2, listed, hp]
      exact AList.lookup_insert_ne hrepo
  · rw [if_neg hproject, if_neg fun h => hproject h.1]

/-- The repository of a project is no longer listed. -/
theorem listed_unlistRepo (project repo project' repo' : Text) :
    (state.unlistRepo project repo).listed project' repo' =
      if project' = project ∧ repo' = repo then none else state.listed project' repo' := by
  rw [unlistRepo]
  rcases hp : state.projects.lookup project with _ | p
  · show state.listed project' repo' = _
    split
    case isTrue h => rw [listed, h.1, hp]; rfl
    case isFalse => rfl
  · show listed { state with projects := state.projects.insert project _ } project' repo' = _
    rw [listed_insert]
    by_cases hproject : project' = project
    · subst hproject
      rw [if_pos rfl]
      by_cases hrepo : repo' = repo
      · subst hrepo
        rw [if_pos ⟨rfl, rfl⟩]
        exact AList.lookup_erase _ _
      · rw [if_neg fun h => hrepo h.2, listed, hp]
        exact AList.lookup_erase_ne hrepo
    · rw [if_neg hproject, if_neg fun h => hproject h.1]

@[simp]
theorem slots_listRepo (project repo branch repo' : Text) :
    (state.listRepo project repo branch).slots repo' = state.slots repo' := by
  rw [listRepo]
  split <;> rfl

@[simp]
theorem repos_listRepo (project repo branch : Text) : (state.listRepo project repo branch).repos = state.repos := by
  rw [listRepo]
  split <;> rfl

@[simp]
theorem slots_unlistRepo (project repo repo' : Text) :
    (state.unlistRepo project repo).slots repo' = state.slots repo' := by
  rw [unlistRepo]
  split <;> rfl

@[simp]
theorem repos_unlistRepo (project repo : Text) : (state.unlistRepo project repo).repos = state.repos := by
  rw [unlistRepo]
  split <;> rfl

theorem slots_releaseProject (name repo : Text) :
    (state.releaseProject name).slots repo = (state.slots repo).map (Slot.release name) := by
  have hlookup : (state.releaseProject name).pool.lookup repo =
      (state.pool.lookup repo).map fun slots => slots.map (Slot.release name) := Table.lookup_mapValues _ _ _
  rw [State.slots, hlookup, State.slots]
  cases state.pool.lookup repo <;> rfl

/-! ## What keeps a state consistent -/

theorem listed_isSome {project repo branch : Text} (h : state.listed project repo = some branch) :
    (state.projects.lookup project).isSome = true := by
  rw [listed, Option.bind_eq_some_iff] at h
  obtain ⟨p, hp, -⟩ := h
  rw [hp]
  rfl

/-- The lists of the projects may change for what is left open. -/
theorem ValidBut.relist {t : State} {skip' : Text → Text → Prop} (h : state.ValidBut base skip)
    (hrepos : t.repos = state.repos) (hslots : ∀ repo, t.slots repo = state.slots repo)
    (hlisted : ∀ project repo, ¬ skip' project repo →
      ¬ skip project repo ∧ t.listed project repo = state.listed project repo) : t.ValidBut base skip' := by
  refine ⟨?_, ?_, ?_, ?_, ?_, ?_⟩
  · simpa [hrepos] using h.slash
  · simpa [hrepos, hslots] using h.pooled
  · simpa [hslots] using h.indexed
  · simpa [Owns, hslots] using h.owns_one
  · intro repo i slot project hslot howner hno
    obtain ⟨hclosed, hsame⟩ := hlisted project repo hno
    rw [hslots] at hslot
    rw [hsame]
    exact h.owner_lists repo i slot project hslot howner hclosed
  · intro project repo branch hproject hno
    obtain ⟨hclosed, hsame⟩ := hlisted project repo hno
    rw [hsame] at hproject
    rw [hrepos]
    obtain ⟨entry, hentry, howns⟩ := h.listed_owns project repo branch hproject hclosed
    refine ⟨entry, hentry, fun hexternal => ?_⟩
    obtain ⟨i, slot, hslot, howner⟩ := howns hexternal
    exact ⟨i, slot, by rwa [hslots], howner⟩

/-- A new project lists nothing. -/
theorem Valid.insertProject {name : Text} (h : state.Valid base) (hnew : state.projects.lookup name = none) :
    (state.insertProject name).Valid base := by
  refine h.relist rfl (fun _ => rfl) fun project repo _ => ⟨not_false, ?_⟩
  show listed { state with projects := state.projects.insert name _ } project repo = _
  rw [listed_insert]
  split
  case isTrue heq =>
    rw [heq, listed, hnew]
    rfl
  case isFalse => rfl

/-- A project goes with its slots. -/
theorem Valid.dropProject (h : state.Valid base) (name : Text) : (state.dropProject name).Valid base := by
  have hslots : ∀ repo, (state.dropProject name).slots repo = (state.slots repo).map (Slot.release name) :=
    fun repo => slots_releaseProject name repo
  have hslot : ∀ {repo : Text} {i : ℕ} {slot}, ((state.dropProject name).slots repo)[i]? = some slot →
      ∃ old, (state.slots repo)[i]? = some old ∧ slot = old.release name := by
    intro repo i slot hslot
    rw [hslots, List.getElem?_map, Option.map_eq_some_iff] at hslot
    obtain ⟨old, hold, rfl⟩ := hslot
    exact ⟨old, hold, rfl⟩
  -- a slot that still has an owner was not released
  have howner : ∀ {old : Slot} {project}, (old.release name).owner = some project →
      old.owner = some project ∧ project ≠ name ∧ old.release name = old := by
    intro old project howner
    rw [Slot.release] at howner ⊢
    split at howner
    case isTrue => cases howner
    case isFalse hne =>
      refine ⟨howner, fun heq => hne (heq ▸ howner), ?_⟩
      rw [if_neg hne]
  have hlisted : ∀ {project repo}, project ≠ name →
      (state.dropProject name).listed project repo = state.listed project repo := by
    intro project repo hne
    show ((state.projects.erase name).lookup project).bind _ = _
    rw [AList.lookup_erase_ne hne]
    rfl
  constructor
  · exact h.slash
  · intro repo i slot hs
    obtain ⟨old, hold, -⟩ := hslot hs
    obtain ⟨entry, hentry, hexternal, hle⟩ := h.pooled repo i old hold
    exact ⟨entry, hentry, hexternal, by rwa [hslots, List.length_map]⟩
  · intro repo i slot hs
    obtain ⟨old, hold, rfl⟩ := hslot hs
    rw [Slot.release]
    split
    · exact h.indexed repo i old hold
    · exact h.indexed repo i old hold
  · rintro project repo i j ⟨slot, hs, hown⟩ ⟨slot', hs', hown'⟩
    obtain ⟨old, hold, rfl⟩ := hslot hs
    obtain ⟨old', hold', rfl⟩ := hslot hs'
    exact h.owns_one project repo i j ⟨old, hold, (howner hown).1⟩ ⟨old', hold', (howner hown').1⟩
  · intro repo i slot project hs hown _
    obtain ⟨old, hold, rfl⟩ := hslot hs
    obtain ⟨hown', hne, heq⟩ := howner hown
    rw [heq, hlisted hne]
    exact h.owner_lists repo i old project hold hown' not_false
  -- a project that is still listed is another one, and keeps its slot
  · intro project repo branch hproject _
    have hne : project ≠ name := by
      rintro rfl
      have hsome := listed_isSome hproject
      change ((state.projects.erase project).lookup project).isSome = true at hsome
      rw [AList.lookup_erase] at hsome
      cases hsome
    rw [hlisted hne] at hproject
    obtain ⟨entry, hentry, howns⟩ := h.listed_owns project repo branch hproject not_false
    refine ⟨entry, hentry, fun hexternal => ?_⟩
    obtain ⟨i, old, hold, hown⟩ := howns hexternal
    refine ⟨i, old.release name, by rw [hslots, List.getElem?_map, hold, Option.map_some], ?_⟩
    rw [Slot.release, if_neg]
    · exact hown
    · rw [hown]
      exact fun heq => hne (Option.some.inj heq)

/-- The entry of a repository may be new, or allow for more slots. -/
theorem ValidBut.setRepo (h : state.ValidBut base skip) {repo : Text} {entry : RepoEntry} (hslash : '/' ∉ repo)
    (hold : ∀ entry', state.repos.lookup repo = some entry' →
      entry.external = entry'.external ∧ entry'.maxSlots ≤ entry.maxSlots) :
    ValidBut base { state with repos := state.repos.insert repo entry } skip := by
  have hkept : ∀ {repo' entry'}, state.repos.lookup repo' = some entry' →
      ∃ entry'', (state.repos.insert repo entry).lookup repo' = some entry'' ∧
        entry''.external = entry'.external ∧ entry'.maxSlots ≤ entry''.maxSlots := by
    intro repo' entry' hentry
    by_cases hrepo : repo' = repo
    · subst hrepo
      exact ⟨entry, AList.lookup_insert _, hold entry' hentry⟩
    · exact ⟨entry', by rwa [AList.lookup_insert_ne hrepo], rfl, le_rfl⟩
  refine ⟨?_, ?_, h.indexed, h.owns_one, h.owner_lists, ?_⟩
  · intro repo' entry' hentry
    by_cases hrepo : repo' = repo
    · exact hrepo ▸ hslash
    · change (state.repos.insert repo entry).lookup repo' = some entry' at hentry
      rw [AList.lookup_insert_ne hrepo] at hentry
      exact h.slash repo' entry' hentry
  · intro repo' i slot hslot
    obtain ⟨entry', hentry, hexternal, hle⟩ := h.pooled repo' i slot hslot
    obtain ⟨entry'', hentry'', hsame, hmax⟩ := hkept hentry
    exact ⟨entry'', hentry'', hsame.trans hexternal, le_trans hle hmax⟩
  · intro project repo' branch hlisted hno
    obtain ⟨entry', hentry, howns⟩ := h.listed_owns project repo' branch hlisted hno
    obtain ⟨entry'', hentry'', hsame, -⟩ := hkept hentry
    exact ⟨entry'', hentry'', fun hexternal => howns (hsame.symm.trans hexternal)⟩

/-- A repository that the state does not have has no slots and is in no project. -/
theorem ValidBut.insertRepo (h : state.ValidBut base skip) {repo : Text} {entry : RepoEntry}
    (hnew : state.repos.lookup repo = none) (hslash : '/' ∉ repo) :
    ValidBut base { state with repos := state.repos.insert repo entry } skip := by
  refine h.setRepo hslash fun entry' hentry => ?_
  rw [hnew] at hentry
  cases hentry

/-- A pooled repository that is listed needs a slot. -/
theorem Valid.listPooled (h : state.Valid base) {project repo branch : Text} {p : Project}
    (hp : state.projects.lookup project = some p) :
    (state.listRepo project repo branch).ValidBut base fun project' repo' => project' = project ∧ repo' = repo :=
  h.relist (repos_listRepo ..) (slots_listRepo project repo branch) fun project' repo' hno =>
    ⟨not_false, by rw [listed_listRepo hp, if_neg hno]⟩

/-- An external repository can be listed without a slot. -/
theorem Valid.listExternal (h : state.Valid base) {project repo branch : Text} {p : Project} {entry : RepoEntry}
    (hp : state.projects.lookup project = some p) (hentry : state.repos.lookup repo = some entry)
    (hexternal : entry.external = true) : (state.listRepo project repo branch).Valid base := by
  have hopen : (state.listRepo project repo branch).ValidBut base _ := h.listPooled hp
  refine ⟨hopen.slash, hopen.pooled, hopen.indexed, hopen.owns_one, ?_, ?_⟩
  · intro repo' i slot project' hslot howner _
    refine hopen.owner_lists repo' i slot project' hslot howner ?_
    rintro ⟨-, rfl⟩
    -- the repository has no slots, since it is external
    rw [slots_listRepo] at hslot
    obtain ⟨entry', hentry', hno, -⟩ := h.pooled repo' i slot hslot
    rw [hentry] at hentry'
    cases hentry'
    rw [hexternal] at hno
    cases hno
  · intro project' repo' branch' hlisted _
    by_cases heq : project' = project ∧ repo' = repo
    · refine ⟨entry, by rw [repos_listRepo, heq.2, hentry], fun hno => ?_⟩
      rw [hexternal] at hno
      cases hno
    · exact hopen.listed_owns project' repo' branch' hlisted heq

theorem getElem?_fillSlots {slots : List Slot} {repo : Text} {maxSlots : ℕ} {now : ℤ} {i : ℕ} {slot : Slot} :
    (fillSlots base repo maxSlots now slots)[i]? = some slot ↔
      slots[i]? = some slot ∨ (slots.length ≤ i ∧ i < maxSlots ∧ slot = newSlot base repo now i) := by
  rw [fillSlots, List.getElem?_append]
  by_cases hi : i < slots.length
  · rw [if_pos hi]
    constructor
    · exact .inl
    · rintro (h | ⟨hle, -⟩)
      · exact h
      · omega
  · rw [if_neg hi, List.getElem?_map, Option.map_eq_some_iff]
    have hnone : slots[i]? = none := List.getElem?_eq_none (by omega)
    rw [hnone]
    constructor
    · rintro ⟨index, hindex, rfl⟩
      obtain ⟨hlt, heq⟩ := List.getElem?_eq_some_iff.mp hindex
      rw [List.length_range'] at hlt
      rw [List.getElem_range'] at heq
      have hi' : i = index := by omega
      exact .inr ⟨by omega, by omega, by rw [hi']⟩
    · rintro (h | ⟨hle, hlt, rfl⟩)
      · cases h
      · refine ⟨i, ?_, rfl⟩
        rw [List.getElem?_range' (by omega)]
        congr 1
        omega

/-- A slot of a repository that is filled up is an old one or free. -/
theorem getElem?_fill {repo repo' : Text} {maxSlots : ℕ} {now : ℤ} {i : ℕ} {slot : Slot}
    (h : ((state.fill base repo maxSlots now).slots repo')[i]? = some slot) :
    (state.slots repo')[i]? = some slot ∨ (repo' = repo ∧ slot = newSlot base repo now i) := by
  rw [slots_setSlots] at h
  split at h
  case isFalse => exact .inl h
  case isTrue heq =>
    rcases getElem?_fillSlots.mp h with hold | ⟨-, -, hnew⟩
    · exact .inl (heq ▸ hold)
    · exact .inr ⟨heq, hnew⟩

theorem owns_of_fill {repo : Text} {maxSlots : ℕ} {now : ℤ} {project repo' : Text} {i : ℕ}
    (h : (state.fill base repo maxSlots now).Owns project repo' i) :
    state.Owns project repo' i := by
  obtain ⟨slot, hslot, howner⟩ := h
  rcases getElem?_fill hslot with hold | ⟨-, rfl⟩
  · exact ⟨slot, hold, howner⟩
  · cases howner

theorem ValidBut.slots_le (h : state.ValidBut base skip) {repo : Text} {entry : RepoEntry}
    (hentry : state.repos.lookup repo = some entry) : (state.slots repo).length ≤ entry.maxSlots := by
  rcases hslots : state.slots repo with _ | ⟨slot, slots⟩
  · exact Nat.zero_le _
  · obtain ⟨entry', hentry', -, hle⟩ := h.pooled repo 0 slot (by rw [hslots]; rfl)
    rw [hentry] at hentry'
    cases hentry'
    rwa [← hslots]

/-- The new slots of a repository are free. -/
theorem ValidBut.fill (h : state.ValidBut base skip) {repo : Text} {entry : RepoEntry} (now : ℤ)
    (hentry : state.repos.lookup repo = some entry) (hexternal : entry.external = false) :
    (state.fill base repo entry.maxSlots now).ValidBut base skip := by
  have hle := h.slots_le hentry
  have hkept : ∀ {repo' : Text} {i : ℕ} {slot}, (state.slots repo')[i]? = some slot →
      ((state.fill base repo entry.maxSlots now).slots repo')[i]? = some slot := by
    intro repo' i slot hslot
    rw [slots_setSlots]
    split
    case isFalse => exact hslot
    case isTrue heq => exact getElem?_fillSlots.mpr (.inl (heq ▸ hslot))
  refine ⟨h.slash, ?_, ?_, ?_, ?_, ?_⟩
  · intro repo' i slot hs
    rw [slots_setSlots]
    split
    case isTrue heq =>
      refine ⟨entry, heq ▸ hentry, hexternal, ?_⟩
      rw [fillSlots, List.length_append, List.length_map, List.length_range']
      omega
    case isFalse hne =>
      rcases getElem?_fill hs with hold | ⟨heq, -⟩
      · exact h.pooled repo' i slot hold
      · exact absurd heq hne
  · intro repo' i slot hs
    rcases getElem?_fill hs with hold | ⟨rfl, rfl⟩
    · exact h.indexed repo' i slot hold
    · exact ⟨rfl, rfl⟩
  · exact fun project repo' i j hi hj => h.owns_one project repo' i j (owns_of_fill hi) (owns_of_fill hj)
  · intro repo' i slot project hs howner hno
    rcases getElem?_fill hs with hold | ⟨-, rfl⟩
    · exact h.owner_lists repo' i slot project hold howner hno
    · cases howner
  · intro project repo' branch hlisted hno
    obtain ⟨entry', hentry', hexists⟩ := h.listed_owns project repo' branch hlisted hno
    refine ⟨entry', hentry', fun hpool => ?_⟩
    obtain ⟨i, slot, hs, howner⟩ := hexists hpool
    exact ⟨i, slot, hkept hs, howner⟩

/-- A repository may have more slots. -/
theorem ValidBut.grow (h : state.ValidBut base skip) {repo : Text} {entry : RepoEntry}
    (hentry : state.repos.lookup repo = some entry) :
    ValidBut base { state with repos := state.repos.insert repo { entry with maxSlots := entry.maxSlots + 1 } } skip := by
  refine h.setRepo (h.slash repo entry hentry) fun entry' hentry' => ?_
  rw [hentry] at hentry'
  cases hentry'
  exact ⟨rfl, Nat.le_succ _⟩

/-- A project that loses its slot no longer lists the repository. -/
theorem ValidBut.unlist (h : state.ValidBut base skip) (project repo : Text) :
    (state.unlistRepo project repo).ValidBut base fun project' repo' =>
      skip project' repo' ∨ (project' = project ∧ repo' = repo) :=
  h.relist (repos_unlistRepo ..) (slots_unlistRepo project repo) fun project' repo' hno =>
    ⟨fun hopen => hno (.inl hopen), by rw [listed_unlistRepo, if_neg fun heq => hno (.inr heq)]⟩

/-- A project takes a slot that nobody else needs: it is the only one for which this was open, apart from the
one that had the slot and no longer lists the repository. -/
theorem ValidBut.take (h : state.ValidBut base skip) {project repo branch : Text} {i : ℕ} {slot : Slot} (now : ℤ)
    (hslot : (state.slots repo)[i]? = some slot) (hlisted : state.listed project repo = some branch)
    (hown : ∀ j, state.Owns project repo j → j = i)
    (hprevious : ∀ project', slot.owner = some project' → project' ≠ project → state.listed project' repo = none)
    (hskip : ∀ project' repo', skip project' repo' →
      repo' = repo ∧ (project' = project ∨ slot.owner = some project')) :
    (state.setSlot repo i (Slot.take project branch now)).Valid base := by
  -- the slot taken, and all the others
  have htaken : ∀ {repo' j slot'}, ((state.setSlot repo i (Slot.take project branch now)).slots repo')[j]? = some slot' →
      (repo' = repo ∧ j = i ∧ slot' = slot.take project branch now) ∨
        (¬ (repo' = repo ∧ j = i) ∧ (state.slots repo')[j]? = some slot') := by
    intro repo' j slot' hs
    rw [getElem?_setSlot] at hs
    split at hs
    case isTrue heq =>
      obtain ⟨rfl, rfl⟩ := heq
      rw [hslot] at hs
      exact .inl ⟨rfl, rfl, (Option.some.inj hs).symm⟩
    case isFalse hne => exact .inr ⟨hne, hs⟩
  have hold : ∀ {repo' j slot'}, ¬ (repo' = repo ∧ j = i) → (state.slots repo')[j]? = some slot' →
      ((state.setSlot repo i (Slot.take project branch now)).slots repo')[j]? = some slot' := by
    intro repo' j slot' hne hs
    rw [getElem?_setSlot, if_neg hne, hs]
  have hnew : (state.setSlot repo i (Slot.take project branch now)).Owns project repo i := by
    refine ⟨slot.take project branch now, ?_, rfl⟩
    rw [getElem?_setSlot, if_pos ⟨rfl, rfl⟩, hslot]
    rfl
  constructor
  · exact h.slash
  · intro repo' j slot' hs
    rw [length_setSlot]
    rcases htaken hs with ⟨rfl, rfl, -⟩ | ⟨-, hs⟩
    · exact h.pooled repo' j slot hslot
    · exact h.pooled repo' j slot' hs
  · intro repo' j slot' hs
    rcases htaken hs with ⟨rfl, rfl, rfl⟩ | ⟨-, hs⟩
    · exact h.indexed repo' j slot hslot
    · exact h.indexed repo' j slot' hs
  · rintro project' repo' j k ⟨sj, hj, hownj⟩ ⟨sk, hk, hownk⟩
    rcases htaken hj with ⟨rfl, rfl, rfl⟩ | ⟨-, hj'⟩ <;> rcases htaken hk with ⟨hrepo, rfl, rfl⟩ | ⟨-, hk'⟩
    · rfl
    · cases hownj
      exact (hown k ⟨sk, hk', hownk⟩).symm
    · cases hownk
      subst hrepo
      exact hown j ⟨sj, hj', hownj⟩
    · exact h.owns_one project' repo' j k ⟨sj, hj', hownj⟩ ⟨sk, hk', hownk⟩
  · intro repo' j slot' project' hs howner _
    rcases htaken hs with ⟨rfl, rfl, rfl⟩ | ⟨hne, hs'⟩
    · cases howner
      exact ⟨branch, rfl, hlisted⟩
    · refine h.owner_lists repo' j slot' project' hs' howner fun hopen => ?_
      obtain ⟨rfl, rfl | howner'⟩ := hskip _ _ hopen
      · exact hne ⟨rfl, hown j ⟨slot', hs', howner⟩⟩
      · exact hne ⟨rfl, h.owns_one project' repo' j i ⟨slot', hs', howner⟩ ⟨slot, hslot, howner'⟩⟩
  · intro project' repo' branch' hlisted' _
    obtain ⟨entry, hentry, hexternal, -⟩ := h.pooled repo i slot hslot
    by_cases hproject : project' = project ∧ repo' = repo
    · obtain ⟨rfl, rfl⟩ := hproject
      exact ⟨entry, hentry, fun _ => ⟨i, hnew⟩⟩
    -- what was open is closed: the project has its slot now, and the owner before it lists nothing
    · have hopen : ¬ skip project' repo' := by
        intro hs'
        obtain ⟨rfl, rfl | howner'⟩ := hskip _ _ hs'
        · exact hproject ⟨rfl, rfl⟩
        · have hnone := hprevious project' howner' fun heq => hproject ⟨heq, rfl⟩
          change state.listed project' repo' = some branch' at hlisted'
          rw [hnone] at hlisted'
          cases hlisted'
      obtain ⟨entry', hentry', howns⟩ := h.listed_owns project' repo' branch' hlisted' hopen
      refine ⟨entry', hentry', fun hpool => ?_⟩
      obtain ⟨j, slot', hs, howner⟩ := howns hpool
      refine ⟨j, slot', hold ?_ hs, howner⟩
      rintro ⟨rfl, rfl⟩
      rw [hslot] at hs
      cases hs
      have hnone := hprevious project' howner fun heq => hproject ⟨heq, rfl⟩
      change state.listed project' repo' = some branch' at hlisted'
      rw [hnone] at hlisted'
      cases hlisted'

end State

end Builderbot.Pm
