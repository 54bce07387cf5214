import Builderbot.Pm.Files

/-!
# What `rm` removes

`rm` joins the name to the directory of the workspace and removes what is there, whether or not a project has the name,
and it does not look at what else is there: the empty name stands for the whole workspace, `.pm` for the pool and the
clones, and `a/b` for a part of the project `a`. `Confined` is what is to hold after it, in the files and in the state.

`Separate` says when the places that are to be removed have nothing to do with the rest. A place matters to another
project in two ways: what is below it goes, and a reference whose trail it is on leads nowhere.
-/

namespace Builderbot.Pm

open Program

open Git (Text)

open Lib.Posix

variable {state' : State} {project : Project}

section Confinement

variable (base : Path) (files : Files) (state : State) (name : Text)

/-- What `rm` has to leave alone: the directories of the other projects, in which their links are, the worktrees of the
pool and the bare clones. -/
inductive Kept : Ref → Prop
  | project {other : Text} (hlisted : (state.projects.lookup other).isSome = true) (hother : other ≠ name) :
      Kept (projectRef base other)
  | worktree {repo : Text} {i : ℕ} {slot : Slot} (hslot : (state.slots repo)[i]? = some slot) : Kept (.ofPath slot.path)
  | clone {repo : Text} {entry : RepoEntry} (hentry : state.repos.lookup repo = some entry)
      (hbare : entry.external = false ∧ entry.externalPath = none) : Kept (.ofPath entry.barePath)

/-- The states agree but for one project and its slots. -/
structure SameBut (name : Text) (state state' : State) : Prop where
  repos : state'.repos = state.repos
  projects : ∀ other, other ≠ name → state'.projects.lookup other = state.projects.lookup other
  length : ∀ repo, (state'.slots repo).length = (state.slots repo).length
  slots : ∀ repo (i : ℕ) slot, (state.slots repo)[i]? = some slot → slot.owner ≠ some name →
    (state'.slots repo)[i]? = some slot

/-- A place in the directory of the project, which is in the state. -/
def Own (p : Path) : Prop :=
  (state.projects.lookup name).isSome = true ∧
    ∃ dir, (files.stat (projectRef base name) = some dir ∨ files.lstat (projectRef base name) = some dir) ∧ dir <+: p

/-- Apart from the state file, only what is in the directory of the project has changed, and all that is to be kept is
where it was and as it was. -/
structure Confined (after : Files) : Prop where
  own : ∀ p, after.entry p ≠ files.entry p → files.stat (stateRef base) = some p ∨ Own base files state name p
  kept : ∀ r, Kept base state name r → ∀ dir, files.stat r = some dir → after.stat r = some dir ∧
    ∀ p, dir <+: p → files.stat (stateRef base) ≠ some p → after.entry p = files.entry p
  saved : ∃ state', load base after = some state' ∧ SameBut name state state'

/-! ## When the places are separate -/

/-- What is to be kept, and the state file, is not below the place, not above it, and not found through it. -/
def Spares (q : Path) : Prop :=
  ∀ r, Kept base state name r ∨ r = stateRef base → ∀ dir, files.stat r = some dir →
    ¬ dir <+: q ∧ ∀ w ∈ files.trailOf r, ¬ q <+: w

/-- The links that `rm` removes, and what it removes with the directory, are separate from the rest, and the directory is
only there for a project. -/
structure Separate : Prop where
  links : ∀ project repo q, state.projects.lookup name = some project → repo ∈ project.repos.keys →
    files.filePlace (linkRef base name repo) = some q → Spares base files state name q
  target : ∀ q, (files.stat (projectRef base name)).isSome = true → files.Clears (projectRef base name) q →
    (state.projects.lookup name).isSome = true ∧ Spares base files state name q

/-- A write of the state file that fails leaves the file as it is. -/
def Whole : Call → FileOutcome → Prop
  | .save _, o => o.fails = true → o.torn = none
  | _, _ => True

/-! ## The state -/

variable {base files state name}

theorem sameBut_refl (name : Text) (state : State) : SameBut name state state :=
  ⟨rfl, fun _ _ => rfl, fun _ => rfl, fun _ _ _ h _ => h⟩

theorem sameBut_releaseProject (name : Text) (state : State) : SameBut name state (state.releaseProject name) where
  repos := rfl
  projects _ _ := rfl
  length repo := by rw [State.slots_releaseProject, List.length_map]
  slots repo i slot hslot howner := by
    rw [State.slots_releaseProject, List.getElem?_map, hslot, Option.map_some, Slot.release, if_neg howner]

theorem SameBut.removeProject (h : SameBut name state state') :
    SameBut name state (state'.removeProject name) where
  repos := h.repos
  projects other hother := (AList.lookup_erase_ne hother).trans (h.projects other hother)
  length := h.length
  slots := h.slots

/-- The repositories of a project have names without a slash. -/
theorem slash_notMem_of_mem_keys (h : state.Valid base) {repo : Text}
    (hproject : state.projects.lookup name = some project) (hrepo : repo ∈ project.repos.keys) : '/' ∉ repo := by
  obtain ⟨branch, hbranch⟩ := Option.isSome_iff_exists.mp (AList.lookup_isSome.mpr (AList.mem_keys.mpr hrepo))
  have hlisted : state.listed name repo = some branch := by
    rw [State.listed, hproject]
    exact hbranch
  obtain ⟨entry, hentry, -⟩ := h.listed_owns name repo branch hlisted not_false
  exact h.slash repo entry hentry

/-! ## What has been removed -/

variable (base files state name)

/-- Entries have been removed below places of the project that have nothing to do with the rest. -/
structure Cleared (after : Files) : Prop where
  within : after.Within files
  changed : ∀ p, after.entry p ≠ files.entry p →
    ∃ q, q <+: p ∧ Own base files state name q ∧ Spares base files state name q

variable {base files state name} {mid after : Files}

theorem cleared_refl : Cleared base files state name files := ⟨files.within_refl, fun _ h => absurd rfl h⟩

theorem Cleared.trans (h : Cleared base files state name mid) (hwithin : after.Within mid)
    (hchanged : ∀ p, after.entry p ≠ mid.entry p →
      ∃ q, q <+: p ∧ Own base files state name q ∧ Spares base files state name q) :
    Cleared base files state name after where
  within := hwithin.trans h.within
  changed p hp := by
    by_cases hmid : mid.entry p = files.entry p
    · exact hchanged p (hmid ▸ hp)
    · exact h.changed p hmid

/-- The trail of what is to be kept is not touched. -/
theorem Cleared.entry_trail (h : Cleared base files state name mid) {r : Ref} {dir w : Path}
    (hr : Kept base state name r ∨ r = stateRef base) (hdir : files.stat r = some dir) (hw : w ∈ files.trailOf r) :
    mid.entry w = files.entry w := by
  by_contra hchanged
  obtain ⟨q, hq, -, hspares⟩ := h.changed w hchanged
  exact (hspares r hr dir hdir).2 w hw hq

/-- What is below the places that are to be kept is not touched. -/
theorem Cleared.entry_below (h : Cleared base files state name mid) {r : Ref} {dir p : Path}
    (hr : Kept base state name r ∨ r = stateRef base) (hdir : files.stat r = some dir) (hp : dir <+: p) :
    mid.entry p = files.entry p := by
  by_contra hchanged
  obtain ⟨q, hq, -, hspares⟩ := h.changed p hchanged
  obtain ⟨hbelow, htrail⟩ := hspares r hr dir hdir
  rcases List.prefix_or_prefix_of_prefix hp hq with hdq | hqd
  · exact hbelow hdq
  · exact htrail dir (FileSystem.mem_trailOf hdir) hqd

/-- The state file is written after the removals. -/
theorem Cleared.confined (h : Cleared base files state name mid) {place : Path}
    (hplace : files.stat (stateRef base) = some place) (hfile : files.entry place = some (.file (.state state)))
    (hafter : ∀ p, after.entry p = if p = place then some (.file (.state state')) else mid.entry p)
    (hsame : SameBut name state state') : Confined base files state name after := by
  have hother : ∀ p, p ≠ place → after.entry p = mid.entry p := fun p hp => (hafter p).trans (if_neg hp)
  have hwritten : after.entry place = some (.file (.state state')) := (hafter place).trans (if_pos rfl)
  have hstat : ∀ r, Kept base state name r ∨ r = stateRef base → ∀ dir, files.stat r = some dir →
      after.stat r = some dir := by
    intro r hr dir hdir
    refine FileSystem.stat_of_trail (fun w hw => ?_) hdir
    rcases eq_or_ne w place with rfl | hne
    · rw [hwritten, hfile]
      exact .inr ⟨_, _, rfl, rfl⟩
    · rw [hother w hne, h.entry_trail hr hdir hw]
      exact FileSystem.alike_refl _
  refine ⟨fun p hp => ?_, fun r hr dir hdir => ⟨hstat r (.inl hr) dir hdir, fun p hbelow hp => ?_⟩, state', ?_, hsame⟩
  · rcases eq_or_ne p place with rfl | hne
    · exact .inl hplace
    · rw [hother p hne] at hp
      obtain ⟨q, hq, ⟨hlisted, dir, hdir, hbelow⟩, -⟩ := h.changed p hp
      exact .inr ⟨hlisted, dir, hdir, hbelow.trans hq⟩
  · have hne : p ≠ place := by
      rintro rfl
      exact hp hplace
    rw [hother p hne]
    exact h.entry_below (.inl hr) hdir hbelow
  · rw [load, hstat _ (.inr rfl) place hplace, Option.bind_some, hwritten]

theorem load_eq_some (h : load base files = some state) :
    ∃ place, files.stat (stateRef base) = some place ∧ files.entry place = some (.file (.state state)) := by
  obtain ⟨place, hplace, hentry⟩ := Option.bind_eq_some_iff.mp h
  split at hentry
  case h_1 state' hfile =>
    obtain rfl := Option.some.inj hentry
    exact ⟨place, hplace, hfile⟩
  case h_2 => cases hentry

/-- Without a write the state file is as it was. -/
theorem Cleared.confined_unwritten (h : Cleared base files state name mid) (hload : load base files = some state) :
    Confined base files state name mid := by
  obtain ⟨place, hplace, hfile⟩ := load_eq_some hload
  refine h.confined hplace hfile (fun p => ?_) (sameBut_refl name state)
  split
  case isTrue hp =>
    rw [hp, h.entry_below (.inr rfl) hplace List.prefix_rfl]
    exact hfile
  case isFalse => rfl

/-! ## The calls -/

/-- A link of the project is removed. -/
theorem Cleared.removeLink (h : Cleared base files state name mid) (hsep : Separate base files state name)
    (hvalid : state.Valid base) {repo : Text} (hproject : state.projects.lookup name = some project)
    (hrepo : repo ∈ project.repos.keys) (o : FileOutcome) :
    Cleared base files state name (handle base mid (.removeLink name repo) o).2 := by
  rw [handle]
  dsimp only
  split
  case isTrue => exact h
  case isFalse =>
    refine h.trans (FileSystem.within_removeFile _ _) fun p hp => ⟨p, List.prefix_rfl, ?_⟩
    have hplace := h.within.filePlace (FileSystem.removeFile_entry hp)
    obtain ⟨dir, hdir, hin⟩ := FileSystem.stat_of_filePlace_join (slash_notMem_of_mem_keys hvalid hproject hrepo) hplace
    refine ⟨⟨by rw [hproject]; rfl, dir, .inl hdir, ?_⟩, hsep.links project repo p hproject hrepo hplace⟩
    rw [hin]
    exact List.prefix_append dir [repo]

/-- The directory is removed, or a part of it. -/
theorem Cleared.removeProjectDir (h : Cleared base files state name mid) (hsep : Separate base files state name)
    (hthere : (mid.stat (projectRef base name)).isSome = true) (o : FileOutcome) :
    Cleared base files state name (handle base mid (.removeProjectDir name) o).2 := by
  obtain ⟨dir, hdir⟩ := Option.isSome_iff_exists.mp hthere
  have hstat : (files.stat (projectRef base name)).isSome = true := by
    rw [h.within.stat hdir]
    rfl
  have hgone : ∀ p, (∃ q, mid.Clears (projectRef base name) q ∧ q <+: p) →
      ∃ q, q <+: p ∧ Own base files state name q ∧ Spares base files state name q := by
    rintro p ⟨q, hq, hbelow⟩
    have hclears := h.within.clears hq
    obtain ⟨hlisted, hspares⟩ := hsep.target q hstat hclears
    exact ⟨q, hbelow, ⟨hlisted, q, .inr hclears.place, List.prefix_rfl⟩, hspares⟩
  rw [handle]
  split
  case isTrue =>
    exact h.trans (FileSystem.within_removePart _ _ _) fun p hp => hgone p (FileSystem.removePart_entry hp)
  case isFalse =>
    exact h.trans (FileSystem.within_removeDirAll _ _) fun p hp => hgone p (FileSystem.removeDirAll_entry hp)

theorem removeLinks_clears {allowed : Call → FileOutcome → Prop} (hsep : Separate base files state name)
    (hvalid : state.Valid base) (hproject : state.projects.lookup name = some project)
    {repos : List Text} (hrepos : ∀ repo ∈ repos, repo ∈ project.repos.keys) (h : Cleared base files state name mid) :
    Wp (handle base) allowed (fun r after => r = .ok () ∧ Cleared base files state name after) (removeLinks name repos)
      mid := by
  induction repos generalizing mid with
  | nil => exact ⟨rfl, h⟩
  | cons repo repos ih =>
    rw [List.forall_mem_cons] at hrepos
    rw [removeLinks]
    intro o _
    dsimp only [Program.bind, handle]
    split
    · exact fun o _ => ih hrepos.2 (h.removeLink hsep hvalid hproject hrepos.1 o)
    · exact ih hrepos.2 h

/-- The state is written. -/
theorem Cleared.save (h : Cleared base files state name mid) (hload : load base files = some state)
    (hsame : SameBut name state state') :
    Wp (handle base) Whole (fun _ after => Confined base files state name after) state'.save mid := by
  obtain ⟨place, hplace, hfile⟩ := load_eq_some hload
  intro o ho
  have hend : Confined base files state name (handle base mid (.save state') o).2 := by
    rw [handle, saveState]
    split
    case isTrue hfails =>
      rw [ho hfails]
      exact h.confined_unwritten hload
    case isFalse =>
      have hmid : mid.entry place = some (.file (.state state)) :=
        (h.entry_below (.inr rfl) hplace List.prefix_rfl).trans hfile
      have hstat : mid.stat (stateRef base) = some place := by
        refine FileSystem.stat_of_trail (fun w hw => ?_) hplace
        rw [h.entry_trail (.inr rfl) hplace hw]
        exact FileSystem.alike_refl _
      exact h.confined hplace hfile (FileSystem.writeFile_entry hstat rfl hmid _).2 hsame
  show Wp _ _ _ (require _ _) _
  rw [require]
  split <;> exact hend

/-- The end of `rm`. -/
theorem Cleared.removeProject (h : Cleared base files state name mid) (hsep : Separate base files state name)
    (hload : load base files = some state) (hsame : SameBut name state state') :
    Wp (handle base) Whole (fun _ after => Confined base files state name after) (do
      if (← ask (.projectDirExists name) : Bool) then askOk (.removeProjectDir name) (.dirNotRemoved name) id
      (state'.removeProject name).save) mid := by
  intro o _
  dsimp only [Program.bind, handle]
  split
  case isTrue hthere =>
    refine wp_bind.mpr fun o _ => ?_
    have hcleared := h.removeProjectDir hsep hthere o
    show Wp _ _ _ (require _ _) _
    rw [require]
    split
    · exact hcleared.save hload hsame.removeProject
    · exact hcleared.confined_unwritten hload
  case isFalse => exact h.save hload hsame.removeProject

theorem rm_confines (hstates : StatesValid base files) (hload : load base files = some state)
    (hsep : Separate base files state name) :
    Wp (handle base) Whole (fun _ after => Confined base files state name after) (rm name) files := by
  have hvalid := hstates.load hload
  rw [rm]
  refine wp_bind.mpr fun o _ => ?_
  rw [handle, hload]
  rcases o.fails with _ | _
  case true => exact cleared_refl.confined_unwritten hload
  case false =>
    show Wp _ _ _ (releaseListed state name >>= _) files
    rw [releaseListed]
    split
    case h_1 project hproject =>
      refine wp_bind.mpr (Wp.bind (removeLinks_clears hsep hvalid hproject (fun _ h => h) cleared_refl) ?_ ?_)
      · exact fun _ mid hmid => hmid.2.removeProject hsep hload (sameBut_releaseProject name state)
      · rintro e mid ⟨h, -⟩
        cases h
    case h_2 => exact cleared_refl.removeProject hsep hload (sameBut_refl name state)

/-- In every workspace that a run leads to, an `rm` is confined to its project, as long as what it removes is separate from
the rest and no write leaves the state file in pieces. -/
theorem run_rm_confined {start files : Files} {events : List FileEvent} {outcome : Call → FileOutcome}
    (hstateless : Stateless start) (hrun : run (filesStep base) start events = some files)
    (hload : load base files = some state) (hwhole : ∀ c, Whole c (outcome c)) (name : Text)
    (hsep : Separate base files state name) : Confined base files state name (main base (.rm name) outcome files) := by
  have hthere : (files.stat (stateRef base)).isSome = true := by
    obtain ⟨place, hplace, -⟩ := load_eq_some hload
    rw [hplace]
    rfl
  rw [main, if_pos hthere]
  exact (rm_confines (run_statesValid hstateless hrun) hload hsep).exec hwhole

/-- The project `a` is removed, next to a project `b`. -/
theorem run_rm_confined_next :
    ∃ files state, run (filesStep [['w']]) (.empty Content)
        [.command (.new ['a']) fun _ => {}, .command (.new ['b']) fun _ => {}] = some files ∧
      load [['w']] files = some state ∧ state.projects.keys = [['b'], ['a']] ∧
      Confined [['w']] files state ['a'] (main [['w']] (.rm ['a']) (fun _ => {}) files) := by
  obtain ⟨files, hrun, hfiles⟩ := @exists_run_of_any _ _ (filesStep [['w']]) (.empty Content)
    [.command (.new ['a']) fun _ => {}, .command (.new ['b']) fun _ => {}]
    (fun files =>
      (load [['w']] files).any (fun state => state.projects.keys = [['b'], ['a']] ∧ state.repos.keys = [] ∧
        state.pool.keys = [] ∧ ∀ project ∈ state.projects.lookup ['a'], project.repos.keys = []) ∧
      files.lstat (projectRef [['w']] ['a']) = some [['w'], ['a']] ∧
      ∀ r ∈ [projectRef [['w']] ['b'], stateRef [['w']]], ∀ dir ∈ files.stat r,
        ¬ dir <+: [['w'], ['a']] ∧ ∀ w ∈ files.trailOf r, ¬ [['w'], ['a']] <+: w)
    -- the run and its places, evaluated in one go
    (by decide)
  obtain ⟨hstate, hplace, hspares⟩ := of_decide_eq_true hfiles
  obtain ⟨state, hload, hstate⟩ := (Option.any_eq_true _ _).mp hstate
  obtain ⟨hprojects, hrepos, hpool, hlinks⟩ := of_decide_eq_true hstate
  refine ⟨files, state, hrun, hload, hprojects, run_rm_confined ?_ hrun hload ?_ ['a'] ⟨?_, ?_⟩⟩
  · intro p state hp
    change (if p = [] then some Entry.dir else none) = _ at hp
    split at hp <;> cases hp
  · intro c
    cases c with
    | save => exact fun h => by cases h
    | _ => trivial
  · intro project repo q hproject hrepo
    rw [hlinks project hproject] at hrepo
    exact absurd hrepo List.not_mem_nil
  · intro q _ hclears
    obtain rfl := Option.some.inj (hplace.symm.trans hclears.place)
    refine ⟨AList.lookup_isSome.mpr (AList.mem_keys.mpr (hprojects ▸ by decide)), ?_⟩
    rintro r (hkept | rfl) dir hdir
    · cases hkept with
      | @project other hlisted hother =>
        have hmem := AList.mem_keys.mp (AList.lookup_isSome.mp hlisted)
        rw [hprojects] at hmem
        obtain rfl : other = ['b'] := by simpa [hother] using hmem
        exact hspares _ List.mem_cons_self dir hdir
      | @worktree repo i slot hslot =>
        have hnone : state.pool.lookup repo = none :=
          AList.lookup_eq_none.mpr fun hmem => absurd (hpool ▸ AList.mem_keys.mp hmem) List.not_mem_nil
        rw [State.slots, hnone] at hslot
        cases hslot
      | @clone repo entry hentry _ =>
        have hsome : (state.repos.lookup repo).isSome = true := by
          rw [hentry]
          rfl
        have hmem := AList.mem_keys.mp (AList.lookup_isSome.mp hsome)
        rw [hrepos] at hmem
        exact absurd hmem List.not_mem_nil
    · exact hspares _ (List.mem_cons_of_mem _ (List.mem_singleton_self _)) dir hdir

/-- Without a name the whole workspace goes, and the state file with it. -/
theorem run_rm_unnamed :
    ∃ files state, run (filesStep [['w']]) (.empty Content) [.command (.new ['a']) fun _ => {}] = some files ∧
      load [['w']] files = some state ∧
      ¬ Confined [['w']] files state [] (main [['w']] (.rm []) (fun _ => {}) files) := by
  obtain ⟨files, hrun, hfiles⟩ := @exists_run_of_any _ _ (filesStep [['w']]) (.empty Content)
    [.command (.new ['a']) fun _ => {}]
    (fun files => (load [['w']] files).isSome ∧ (load [['w']] (main [['w']] (.rm []) (fun _ => {}) files)).isNone)
    (by decide)
  obtain ⟨hload, hgone⟩ := of_decide_eq_true hfiles
  obtain ⟨state, hload⟩ := Option.isSome_iff_exists.mp hload
  refine ⟨files, state, hrun, hload, fun h => ?_⟩
  obtain ⟨state', hstate', -⟩ := h.saved
  rw [hstate'] at hgone
  cases hgone

end Confinement

end Builderbot.Pm
