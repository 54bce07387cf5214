import Builderbot.Pm.Eviction

/-!
# An `add` that fails

A failed `add` is to leave the other projects alone, and an eviction does so if `git` fails. But the new link and
the state file come after the eviction, and when one of these fails, the project that was evicted has lost its
link and its branch, and still owns the slot. `run_add_untouched_iff` says exactly when a failed `add` leaves the
others alone, as long as a write that fails leaves the state file in one piece and no two names lead to one
directory.
-/

namespace Builderbot.Pm

open Program

open Git (Text)

variable {state' : State}

namespace World

/-- Nothing has changed for the projects apart from one. -/
structure Untouched (project : Text) (w t : World) : Prop where
  entry : ∀ q, q ≠ project → t.stored.projects.lookup q = w.stored.projects.lookup q
  slots : ∀ q, q ≠ project → ∀ repo (i : ℕ) slot, slot.owner = some q →
    ((t.stored.slots repo)[i]? = some slot ↔ (w.stored.slots repo)[i]? = some slot)
  place : t.place = w.place
  links : ∀ q, q ≠ project → w.stored.projects.lookup q ≠ none → ∀ repo,
    t.links (w.place q) repo = w.links (w.place q) repo
  heads : ∀ q, q ≠ project → ∀ repo (i : ℕ) slot, (w.stored.slots repo)[i]? = some slot → slot.owner = some q →
    t.headAt slot.path = w.headAt slot.path

/-- No other project that is registered has the directory of the project, or one above or below it. -/
def Separate (w : World) (project : Text) : Prop :=
  ∀ q, q ≠ project → w.stored.projects.lookup q ≠ none →
    ¬ w.place q <+: w.place project ∧ ¬ w.place project <+: w.place q

variable {w : World} {t u : World} {project : Text}

/-- Another known project has another directory. -/
theorem Separate.ne (h : w.Separate project) {q : Text} (hq : q ≠ project) (hknown : w.stored.projects.lookup q ≠ none) :
    w.place q ≠ w.place project := fun heq => (h q hq hknown).1 (heq ▸ List.prefix_refl _)

/-- The projects are registered before as after. -/
theorem Untouched.separate (h : Untouched project w t) (hseparate : w.Separate project) : t.Separate project := by
  intro q hq hknown
  rw [h.place]
  exact hseparate q hq (h.entry q hq ▸ hknown)

theorem Untouched.refl (project : Text) (w : World) : Untouched project w w :=
  ⟨fun _ _ => rfl, fun _ _ _ _ _ _ => Iff.rfl, rfl, fun _ _ _ _ => rfl, fun _ _ _ _ _ _ _ => rfl⟩

theorem Untouched.symm (h : Untouched project w t) : Untouched project t w where
  entry q hq := (h.entry q hq).symm
  slots q hq repo i slot howner := (h.slots q hq repo i slot howner).symm
  place := h.place.symm
  links q hq hknown repo := by
    rw [h.place]
    exact (h.links q hq (h.entry q hq ▸ hknown) repo).symm
  heads q hq repo i slot hslot howner := (h.heads q hq repo i slot ((h.slots q hq repo i slot howner).mp hslot) howner).symm

/-- What two steps leave alone, both together leave alone. -/
theorem Untouched.trans (h : Untouched project w t) (h' : Untouched project t u) : Untouched project w u where
  entry q hq := (h'.entry q hq).trans (h.entry q hq)
  slots q hq repo i slot howner := (h'.slots q hq repo i slot howner).trans (h.slots q hq repo i slot howner)
  place := h'.place.trans h.place
  links q hq hknown repo := by
    have hlater := h'.links q hq ((h.entry q hq).symm ▸ hknown) repo
    rw [h.place] at hlater
    exact hlater.trans (h.links q hq hknown repo)
  heads q hq repo i slot hslot howner :=
    (h'.heads q hq repo i slot ((h.slots q hq repo i slot howner).mpr hslot) howner).trans
      (h.heads q hq repo i slot hslot howner)

/-- It does not matter from which of two worlds a project was left alone. -/
theorem Untouched.congr_left (h : Untouched project w t) : Untouched project w u ↔ Untouched project t u :=
  ⟨fun hu => h.symm.trans hu, fun hu => h.trans hu⟩

/-- The file is written with the same slots, and what changes is not about other projects. -/
theorem untouched_write {state : State} (hfile : w.file = .state state)
    (hentry : ∀ q, q ≠ project → state'.projects.lookup q = state.projects.lookup q)
    (hslots : state'.pool = state.pool) : Untouched project w { w with file := .state state' } where
  entry q hq := by
    rw [stored_eq hfile]
    exact hentry q hq
  slots q hq repo i slot howner := by
    rw [stored_eq hfile]
    show ((state'.pool.lookup repo).getD [])[i]? = some slot ↔ _
    rw [hslots]
    rfl
  place := rfl
  links _ _ _ _ := rfl
  heads _ _ _ _ _ _ _ := rfl

end World

variable {base : Path} {state : State} {skip : Text → Text → Prop} {repo project branch : Text} {entry : RepoEntry}
variable {w : World}

/-! ## The link -/

/-- At most the links in one directory have changed, and the directory. -/
structure Linked (project : Text) (w t : World) : Prop where
  file : t.file = w.file
  place : t.place = w.place
  worktrees : t.worktrees = w.worktrees
  links : ∀ dir, dir ≠ w.place project → ∀ repo, t.links dir repo = w.links dir repo

variable {t : World}

/-- A link in the directory of the project may be set. -/
theorem Linked.setLink (h : Linked project w t) (repo : Text) (link : LinkEntry) :
    Linked project w (t.setLink (t.place project) repo link) where
  file := h.file
  place := h.place
  worktrees := h.worktrees
  links dir hdir r := by
    rw [World.links_setLink, if_neg fun heq => hdir (h.place ▸ heq.1)]
    exact h.links dir hdir r

/-- The directory of the project may be made. -/
theorem linked_createProjectDir (project : Text) (w : World) (o : Outcome) : Linked project w (w.handle (.createProjectDir project) o).2 := by
  rw [World.handle]
  split
  · exact ⟨rfl, rfl, rfl, fun _ _ _ => rfl⟩
  · exact ⟨rfl, rfl, rfl, fun _ _ _ => rfl⟩

/-- A link of the project may be removed. -/
theorem Linked.removeLink (h : Linked project w t) (repo : Text) (o : Outcome) :
    Linked project w (t.handle (.removeLink project repo) o).2 := by
  rw [World.handle]
  split
  · exact h
  · exact h.setLink _ _

/-- A link of the project may be made. -/
theorem Linked.symlink (h : Linked project w t) (target : Path) (repo : Text) (o : Outcome) :
    Linked project w (t.handle (.symlink target project repo) o).2 := by
  rw [World.handle]
  split
  · exact h
  · exact h.setLink _ _

/-- A write that fails, and leaves the file as it is. -/
theorem handle_save_eq {state : State} {o : Outcome} (htorn : o.fails = true → o.torn = false)
    (hfails : (w.handle (.save state) o).1 = false) : (w.handle (.save state) o).2 = w := by
  rw [World.handle] at hfails ⊢
  split
  case isTrue h => rw [htorn h, if_neg Bool.false_ne_true]
  case isFalse h =>
    rw [if_neg h] at hfails
    cases hfails

/-- Where `link_and_save` fails, only links of the project have changed. -/
theorem linkAndSave_linked {allowed : Call → Outcome → Prop} {target : Path}
    (hwrites : ∀ state o, allowed (.save state) o → o.fails = true → o.torn = false) :
    Ends allowed (fun r t => ∀ e, r = .error e → Linked project w t) (linkAndSave state project repo target) w := by
  rw [linkAndSave]
  refine ends_askOk_bind (fun o _ _ => ?_) fun o _ _ _ _ => linked_createProjectDir project w o
  have hdir := linked_createProjectDir project w o
  generalize (w.handle (.createProjectDir project) o).2 = t at hdir
  -- the old link is gone or not
  have hlink : ∀ u, Linked project w u → Ends allowed (fun r t => ∀ e, r = .error e → Linked project w t) (do
      askOk (.symlink target project repo) (.notLinked project repo) id
      state.save) u := by
    intro u hu
    refine ends_askOk_bind (fun o _ _ => ?_) fun o _ _ _ _ => hu.symlink target repo o
    have hu' := hu.symlink target repo o
    refine ends_askOk (fun _ _ _ _ h => by cases h) fun o' ho' hfails _ _ => ?_
    rw [handle_save_eq (hwrites state o' ho') hfails]
    exact hu'
  refine ends_look_bind (fun _ => rfl) fun o _ => ?_
  split
  · exact ends_ask_bind fun o _ => hlink _ (hdir.removeLink repo o)
  · exact hlink t hdir

/-! ## What a failure leaves -/

section Pool

variable {outcome : Call → Outcome} {opts : AddConflictOpts} {owner : Text} {slot : Slot} {t : World}

/-- An eviction depends on the pool of the state only. -/
theorem evicts_congr (h : SamePool state state') (file : StateFile) :
    Evicts outcome opts (w.withFile file) state' project repo branch owner slot entry ↔
      Evicts outcome opts w state project repo branch owner slot entry := by
  have hprepared : (exec World.handle outcome (prepareSlot slot.path entry.barePath branch) (w.withFile file)).1 =
      (exec World.handle outcome (prepareSlot slot.path entry.barePath branch) w).1 := by
    rw [exec_map (handle_withFile file) (preparing_prepareSlot slot.path entry.barePath branch)]
  constructor
  · rintro ⟨h₁, h₂, h₃, h₄, h₅⟩
    rw [h.repos] at h₁
    rw [State.Full, h.slots] at h₂
    rw [h.candidates, h.slots] at h₃
    exact ⟨h₁, h₂, h₃, h₄, hprepared.symm.trans h₅⟩
  · rintro ⟨h₁, h₂, h₃, h₄, h₅⟩
    rw [← h.repos] at h₁
    rw [State.Full, ← h.slots] at h₂
    rw [← h.candidates, ← h.slots] at h₃
    exact ⟨h₁, h₂, h₃, h₄, hprepared.trans h₅⟩

/-- What becomes of the other slots depends on the pool of the state only. -/
theorem Fate.congr (h : SamePool state state')
    (hfate : Fate outcome opts w state' project repo branch t) : Fate outcome opts w state project repo branch t := by
  rcases hfate with ⟨hnone, hspared⟩ | ⟨owner, slot, entry, hevicts, hevicted⟩
  · refine .inl ⟨?_, hspared.of_le fun repo i slot hslot => (h.slots repo).symm ▸ hslot⟩
    rintro ⟨owner, slot, entry, hevicts⟩
    exact hnone ⟨owner, slot, entry, (evicts_congr h w.file).mpr hevicts⟩
  · exact .inr ⟨owner, slot, entry, (evicts_congr h w.file).mp hevicts, hevicted⟩

/-- Nobody evicts itself. -/
theorem Evicts.owner_ne (h : Evicts outcome opts w state project repo branch owner slot entry) : owner ≠ project := by
  obtain ⟨c, -, hslot⟩ := h.chosen
  intro heq
  exact (h.full.2 slot (List.mem_of_getElem? hslot)).2 (heq ▸ h.owner_eq)

/-- The link of the project comes after the eviction. -/
theorem Fate.linked {u : World} (h : Fate outcome opts w state project repo branch t) (hu : Linked project t u) :
    Fate outcome opts w state project repo branch u := by
  have hhead : ∀ path, u.headAt path = t.headAt path := fun path => by rw [World.headAt, hu.worktrees]; rfl
  rcases h with ⟨hnone, hspared⟩ | ⟨owner, slot, entry, hevicts, hevicted⟩
  · have hlinks : ∀ dir, dir ≠ w.place project → ∀ r, u.links dir r = t.links dir r :=
      fun dir hdir => hu.links dir (hspared.place ▸ hdir)
    refine .inl ⟨hnone, hu.file.trans hspared.file, hu.place.trans hspared.place,
      fun dir hdir r => (hlinks dir hdir r).trans (hspared.links dir hdir r), ?_⟩
    intro q hq repo i slot hslot howner
    rw [hhead, hspared.heads q hq repo i slot hslot howner]
  · have hlinks : ∀ dir, dir ≠ w.place project → ∀ r, u.links dir r = t.links dir r :=
      fun dir hdir => hu.links dir (hevicted.place ▸ hdir)
    refine .inr ⟨owner, slot, entry, hevicts, hu.file.trans hevicted.file, hu.place.trans hevicted.place, ?_, ?_, ?_, ?_, ?_⟩
    · exact fun hgoes hne => (hlinks _ hne repo).trans (hevicted.lost hgoes hne)
    · exact fun hkept hne => (hlinks _ hne repo).trans (hevicted.kept hkept hne)
    · exact fun dir r hdir hne => (hlinks dir hdir r).trans (hevicted.links dir r hdir hne)
    · rw [hhead, hevicted.head]
    · exact fun path hpath => by rw [hhead, hevicted.heads path hpath]

/-- An eviction takes something from the owner of the slot. -/
def Harms (outcome : Call → Outcome) (opts : AddConflictOpts) (w : World) (state : State)
    (project repo branch : Text) : Prop :=
  ∃ owner slot entry, Evicts outcome opts w state project repo branch owner slot entry ∧
    Loses outcome w repo branch owner slot

/-- Where no other slot is taken, no other project is touched. -/
theorem Spared.untouched (hfile : w.file = .state state) (hseparate : w.Separate project)
    (h : Spared project state w t) : World.Untouched project w t where
  entry q _ := by rw [World.stored, h.file, World.stored]
  slots q _ repo i slot _ := by rw [World.stored, h.file, World.stored]
  place := h.place
  links q hq hknown := h.links _ (hseparate.ne hq hknown)
  heads q hq repo i slot hslot howner := by
    rw [World.stored_eq hfile] at hslot
    exact h.heads q hq repo i slot hslot howner

/-- As long as the new state is not written, the others are untouched exactly if no eviction has harmed one. -/
theorem Fate.untouched_iff (hvalid : state.Valid base) (hfile : w.file = .state state) (hseparate : w.Separate project)
    (h : Fate outcome opts w state project repo branch t) :
    World.Untouched project w t ↔ ¬ Harms outcome opts w state project repo branch := by
  rcases h with ⟨hnone, hspared⟩ | ⟨owner, slot, entry, hevicts, hevicted⟩
  · refine iff_of_true (hspared.untouched hfile hseparate) ?_
    rintro ⟨owner, slot, entry, hevicts, -⟩
    exact hnone ⟨owner, slot, entry, hevicts⟩
  · obtain ⟨c, -, hslot⟩ := hevicts.chosen
    -- who owns a slot is registered
    have hknown : w.stored.projects.lookup owner ≠ none := by
      obtain ⟨b, -, hlisted⟩ := hvalid.owner_lists repo _ slot owner hslot hevicts.owner_eq not_false
      rw [World.stored_eq hfile]
      intro hnone
      rw [State.listed, hnone] at hlisted
      cases hlisted
    have hdir := hseparate.ne hevicts.owner_ne hknown
    constructor
    · rintro huntouched ⟨owner', slot', entry', hevicts', hloses⟩
      obtain ⟨rfl, rfl, -⟩ := hevicts.unique hevicts'
      rcases hloses with hgoes | hhead
      · obtain ⟨target, htarget⟩ := hgoes.1
        have hlink := huntouched.links owner' hevicts.owner_ne hknown repo
        rw [hevicted.lost hgoes hdir, htarget] at hlink
        cases hlink
      · rw [← World.stored_eq hfile] at hslot
        have hsame := huntouched.heads owner' hevicts.owner_ne repo _ slot' hslot hevicts.owner_eq
        exact hhead (hsame.symm.trans hevicted.head)
    · intro hharmless
      have hkeeps : ¬ Loses outcome w repo branch owner slot :=
        fun hloses => hharmless ⟨owner, slot, entry, hevicts, hloses⟩
      rw [Loses, not_or, Classical.not_not] at hkeeps
      refine ⟨fun q _ => ?_, fun q _ repo i slot _ => ?_, hevicted.place, fun q hq hq' r => ?_,
        fun q _ repo i slot' _ _ => ?_⟩
      · rw [World.stored, hevicted.file, World.stored]
      · rw [World.stored, hevicted.file, World.stored]
      · by_cases hqr : w.place q = w.place owner ∧ r = repo
        · obtain ⟨hplace, rfl⟩ := hqr
          rw [hplace]
          exact hevicted.kept hkeeps.1 hdir
        · exact hevicted.links _ r (hseparate.ne hq hq') hqr
      · by_cases hpath : slot'.path = slot.path
        · rw [hpath, hevicted.head, hkeeps.2]
        · exact hevicted.heads slot'.path hpath

variable (hwrites : ∀ state, (outcome (.save state)).fails = true → (outcome (.save state)).torn = false)

include hwrites in

/-- A failed `add_to_pool` touches another project exactly if it evicts one that loses something. -/
theorem addToPool_ends (hvalid : state.Valid base) {p : Project} (hp : state.projects.lookup project = some p)
    (hentry : state.repos.lookup repo = some entry) (hpooled : entry.external = false)
    (hfile : w.file = .state state) (hseparate : w.Separate project) :
    Ends (Exactly outcome)
      (fun r t => ∀ e, r = .error e →
        (World.Untouched project w t ↔ ¬ Harms outcome opts w state project repo branch))
      (addToPool base state project repo branch opts) w := by
  rw [addToPool]
  have hsame := samePool_listRepo state project repo branch
  have hentry' : (state.listRepo project repo branch).repos.lookup repo = some entry := by rw [hsame.repos, hentry]
  refine Wp.bind (slotFor_fate (hvalid.listPooled hp) hentry' hpooled) ?_ ?_
  · rintro ⟨state', index⟩ t ht
    replace ht := ht.congr hsame
    dsimp only
    split
    · refine (linkAndSave_linked fun state o ho => ?_).mono fun r u hu e he =>
        (ht.linked (hu e he)).untouched_iff hvalid hfile hseparate
      exact ho ▸ hwrites state
    · exact fun _ _ => ht.untouched_iff hvalid hfile hseparate
  · exact fun _ t ht _ _ => (ht.congr hsame).untouched_iff hvalid hfile hseparate

end Pool

/-! ## The command -/

def AddArgs.branchName (args : AddArgs) : Text := branchFor args.user args.project args.branchOverride

/-- A slot is asked for, of a repository that is in the state. -/
structure Asks (outcome : Call → Outcome) (args : AddArgs) (w : World) (state : State) (repo : Text)
    (entry : RepoEntry) : Prop where
  existing : ∀ path, args.existing = some path → args.worktree = true ∧
    (outcome (.canonicalize path)).fails = false ∧ (w.checkouts.contains path || (w.worktrees.lookup path).isSome) = true
  repo_eq : args.repoName state = repo
  entry_eq : state.repos.lookup repo = some entry
  pooled : entry.external = false

/-- The slot is asked for, and an eviction harms its owner. -/
def AsksAndHarms (outcome : Call → Outcome) (args : AddArgs) (w : World) (state : State) : Prop :=
  ∃ repo entry, Asks outcome args w state repo entry ∧ Harms outcome args.opts w state args.project repo args.branchName

/-- `add` gets the state and its project, and an eviction harms the owner of a slot. -/
def EvictsInVain (outcome : Call → Outcome) (args : AddArgs) (w : World) : Prop :=
  ∃ state, (outcome .load).fails = false ∧ w.file = .state state ∧
    (state.projects.lookup args.project ≠ none ∨
      w.dirs (w.place args.project) = true ∧ (outcome (.save (state.insertProject args.project))).fails = false) ∧
    AsksAndHarms outcome args w state

/-- Links in the own directory touch no project with another one. -/
theorem Linked.untouched (h : Linked project w t) (hseparate : w.Separate project) : World.Untouched project w t where
  entry q _ := by rw [World.stored, h.file, World.stored]
  slots q _ repo i slot _ := by rw [World.stored, h.file, World.stored]
  place := h.place
  links q hq hknown := h.links _ (hseparate.ne hq hknown)
  heads q _ repo i slot _ _ := by rw [World.headAt, h.worktrees, World.headAt]

section Add

variable {outcome : Call → Outcome} {args : AddArgs} {α β : Type}
variable (hwrites : ∀ state, (outcome (.save state)).fails = true → (outcome (.save state)).torn = false)

/-- A repository that has just been registered has its slots free. -/
theorem not_harms_of_fresh {opts : AddConflictOpts} (hslots : state.slots repo = [])
    (hentry : state.repos.lookup repo = some entry) (hmax : 0 < entry.maxSlots) :
    ¬ Harms outcome opts w state project repo branch := by
  rintro ⟨_, _, entry', hevicts, -⟩
  obtain rfl := Option.some.inj (hentry.symm.trans hevicts.entry_eq)
  have hle := hevicts.full.1
  rw [hslots] at hle
  exact absurd hle (Nat.not_le_of_lt hmax)

/-- A repository that is not registered has no slots. -/
theorem slots_eq_nil (hvalid : state.ValidBut base skip) (hnone : state.repos.lookup repo = none) :
    state.slots repo = [] := by
  rcases hslots : state.slots repo with _ | ⟨slot, slots⟩
  · rfl
  obtain ⟨entry, hentry, -⟩ := hvalid.pooled repo 0 slot (by rw [hslots]; rfl)
  rw [hnone] at hentry
  cases hentry

/-- After a failure that left the others untouched, and without an eviction. -/
theorem untouched_iff_of_no (h : World.Untouched project w t) {harm : Prop} (hno : ¬ harm) :
    World.Untouched project w t ↔ ¬ harm := iff_of_true h hno

include hwrites in
/-- The repository has just been registered. -/
theorem addToPool_fresh {t : World} (hvalid : state.Valid base) {p : Project} (hp : state.projects.lookup project = some p)
    (hnone : state.repos.lookup repo = none) (hslash : '/' ∉ repo) (hfile : t.file = .state state)
    (hmax : 0 < entry.maxSlots) (hpooled : entry.external = false) (hseparate : w.Separate project)
    (h : World.Untouched project w t) (opts : AddConflictOpts) :
    Ends (Exactly outcome) (fun r u => ∀ e, r = .error e → World.Untouched project w u)
      (addToPool base { state with repos := state.repos.insert repo entry } project repo branch opts)
      (t.withFile (.state { state with repos := state.repos.insert repo entry })) := by
  have hwritten : World.Untouched project t (t.withFile (.state { state with repos := state.repos.insert repo entry })) :=
    World.untouched_write hfile (fun _ _ => rfl) rfl
  have hentry : (state.repos.insert repo entry).lookup repo = some entry := AList.lookup_insert _
  have hslots : state.slots repo = [] := slots_eq_nil hvalid hnone
  refine (addToPool_ends hwrites (hvalid.insertRepo hnone hslash) hp hentry hpooled rfl
    ((h.trans hwritten).separate hseparate)).mono fun r u hu e he => ?_
  exact (h.trans hwritten).trans ((hu e he).mpr (not_harms_of_fresh hslots hentry hmax))

include hwrites in

/-- `add --existing` without a worktree takes no slot. -/
theorem addExisting_untouched (hseparate : w.Separate project) (repoInput : Text) (extPath : Path) :
    Ends (Exactly outcome) (fun r t => ∀ e, r = .error e → World.Untouched project w t)
      (addExisting state project repoInput extPath) w := by
  have hrefl := World.Untouched.refl project w
  rw [addExisting]
  refine ends_existingCheckout_bind (fun _ _ _ _ => hrefl) fun _ _ => ends_existingUrl_bind fun url => ?_
  have hlink : ∀ state : State, Ends (Exactly outcome) (fun r t => ∀ e, r = .error e → World.Untouched project w t)
      (linkAndSave (state.listRepo project (existingName repoInput) externalBranch) project (existingName repoInput)
        extPath) w := by
    intro state
    refine (linkAndSave_linked fun state o ho => ?_).mono fun _ _ h e he => (h e he).untouched hseparate
    exact ho ▸ hwrites state
  rw [registerExternal]
  split
  · exact hlink _
  · exact wp_bind.mpr (wp_require_bind (fun _ => hlink _) fun _ _ _ => hrefl)

include hwrites in
theorem addExistingWorktree_ends (hvalid : state.Valid base) {p : Project}
    (hp : state.projects.lookup args.project = some p) (hfile : w.file = .state state)
    (hseparate : w.Separate args.project) {extPath : Path}
    (hexisting : args.existing = some extPath) (hworktree : args.worktree = true) :
    Ends (Exactly outcome)
      (fun r t => ∀ e, r = .error e → (World.Untouched args.project w t ↔ ¬ AsksAndHarms outcome args w state))
      (addExistingWorktree base state args.user args.project args.repoInput args.branchOverride extPath args.opts) w := by
  have hrefl := World.Untouched.refl args.project w
  have hname : args.repoName state = existingName args.repoInput := by rw [AddArgs.repoName, hexisting]
  rw [addExistingWorktree]
  refine ends_existingCheckout_bind (fun e hno _ _ => untouched_iff_of_no hrefl ?_) fun hcanonical hthere => ?_
  · rintro ⟨_, _, hasks, -⟩
    obtain ⟨-, hcanonical, hthere⟩ := hasks.existing extPath hexisting
    rcases hno with ⟨_, rfl, hfails⟩ | hmissing
    · rw [hcanonical] at hfails
      cases hfails
    · rw [hthere] at hmissing
      cases hmissing
  obtain ⟨_, rfl, hcanonical⟩ := hcanonical
  refine ends_existingUrl_bind fun url => ?_
  rw [registerCheckout]
  -- a repository that is not known has no slots to lose
  split
  case h_1 hnone =>
    have hnever : ¬ AsksAndHarms outcome args w state := by
      rintro ⟨_, _, hasks, -⟩
      have hentry := hasks.entry_eq
      rw [← hasks.repo_eq, hname, hnone] at hentry
      cases hentry
    refine wp_bind.mpr (ends_save_bind (fun _ => ?_) fun e o ho hfails _ _ => ?_)
    · refine (addToPool_fresh hwrites hvalid hp hnone (slash_notMem_existingName _) hfile Nat.zero_lt_two rfl
        hseparate hrefl _).mono ?_
      exact fun r t ht e he => untouched_iff_of_no (ht e he) hnever
    · obtain rfl := ho
      rw [hwrites _ hfails, if_neg Bool.false_ne_true]
      exact untouched_iff_of_no hrefl hnever
  case h_2 entry hentry =>
    refine wp_bind.mpr (wp_require_bind (fun hpooled => ?_) fun hexternal _ _ => untouched_iff_of_no hrefl ?_)
    · rw [Bool.not_eq_true'] at hpooled
      refine (addToPool_ends hwrites hvalid hp hentry hpooled hfile hseparate).mono fun r t ht e he => (ht e he).trans ?_
      refine not_congr ⟨fun h => ?_, ?_⟩
      · refine ⟨_, entry, ⟨fun path hpath => ?_, hname, hentry, hpooled⟩, h⟩
        obtain rfl := Option.some.inj (hexisting.symm.trans hpath)
        exact ⟨hworktree, hcanonical, hthere⟩
      · rintro ⟨_, _, hasks, h⟩
        rwa [← hasks.repo_eq, hname] at h
    · rintro ⟨_, entry', hasks, -⟩
      have hentry' := hasks.entry_eq
      rw [← hasks.repo_eq, hname, hentry] at hentry'
      obtain rfl := Option.some.inj hentry'
      rw [hasks.pooled] at hexternal
      cases hexternal

theorem linked_refl (project : Text) (w : World) : Linked project w w := ⟨rfl, rfl, rfl, fun _ _ _ => rfl⟩

/-- A clone adds a directory of its own. -/
theorem linked_tryCloneBare (h : Linked project w t) (url : Text) (dest : Path) (o : Outcome) :
    Linked project w (t.handle (.tryCloneBare url dest) o).2 := by
  rw [World.handle]
  split
  · exact h
  · exact ⟨h.file, h.place, h.worktrees, h.links⟩

/-- Both tries of `clone_bare` only add a directory. -/
theorem cloneBare_linked {allowed : Call → Outcome → Prop} (project url : Text) (dest : Path) (w : World) :
    Ends allowed (fun _ t => Linked project w t) (cloneBare url dest) w := by
  rw [cloneBare]
  refine ends_ask_bind fun o _ => ?_
  have hclone := linked_tryCloneBare (linked_refl project w) url dest o
  split
  · exact hclone
  split
  · refine ends_ask_bind fun o' _ => wp_require_bind (fun _ => ?_) fun _ => ?_
    · exact linked_tryCloneBare hclone _ dest o'
    · exact linked_tryCloneBare hclone _ dest o'
  · exact hclone

include hwrites in
theorem addPooled_ends (hvalid : state.Valid base) {p : Project} (hp : state.projects.lookup args.project = some p)
    (hfile : w.file = .state state) (hseparate : w.Separate args.project) (hexisting : args.existing = none)
    (hpooled : ∀ entry, state.repos.lookup (args.repoName state) = some entry → entry.external = false) :
    Ends (Exactly outcome)
      (fun r t => ∀ e, r = .error e → (World.Untouched args.project w t ↔ ¬ AsksAndHarms outcome args w state))
      (addPooled base state args.user args.project args.repoInput args.branchOverride args.opts
        (resolveRepo state args.repoInput)) w := by
  have hname : args.repoName state = (resolveRepo state args.repoInput).name := by rw [AddArgs.repoName, hexisting]
  -- an eviction needs an entry of the repository
  have hnever : state.repos.lookup (args.repoName state) = none → ¬ AsksAndHarms outcome args w state := by
    rintro hnone ⟨_, _, hasks, -⟩
    have hentry := hasks.entry_eq
    rw [← hasks.repo_eq, hnone] at hentry
    cases hentry
  rw [addPooled, ensureCloned]
  split
  case isTrue hclone =>
    obtain ⟨hnone, hslash⟩ := resolveRepo_needsClone hclone
    have hno := hnever (hname ▸ hnone)
    refine wp_bind.mpr (Wp.bind (cloneBare_linked args.project _ _ w) (fun url t ht => ?_) fun e t ht => ?_)
    · have hwritten := hfile ▸ ht.file
      refine ends_save_bind (fun _ => ?_) fun e o ho hfails _ _ => ?_
      · refine (addToPool_fresh hwrites hvalid hp hnone hslash hwritten Nat.zero_lt_two rfl hseparate
        (ht.untouched hseparate) _).mono ?_
        exact fun r u hu e he => untouched_iff_of_no (hu e he) hno
      · obtain rfl := ho
        rw [hwrites _ hfails, if_neg Bool.false_ne_true]
        exact untouched_iff_of_no (ht.untouched hseparate) hno
    · exact fun _ _ => untouched_iff_of_no (ht.untouched hseparate) hno
  case isFalse =>
    refine wp_bind.mpr (wp_require_bind (fun hsome => ?_) fun hmissing _ _ => ?_)
    · obtain ⟨entry, hentry⟩ := Option.isSome_iff_exists.mp hsome
      have hentryPooled := hpooled entry (hname.symm ▸ hentry)
      refine (addToPool_ends hwrites hvalid hp hentry hentryPooled hfile hseparate).mono fun r t ht e he => (ht e he).trans ?_
      refine not_congr ⟨fun h => ?_, ?_⟩
      · refine ⟨_, entry, ⟨fun path hpath => ?_, hname, hentry, hentryPooled⟩, h⟩
        rw [hexisting] at hpath
        cases hpath
      · rintro ⟨_, _, hasks, h⟩
        rwa [← hasks.repo_eq, hname] at h
    · rw [Option.isSome_eq_false_iff, Option.isNone_iff_eq_none] at hmissing
      exact untouched_iff_of_no (World.Untouched.refl _ _) (hnever (hname.symm ▸ hmissing))

include hwrites in
/-- `add` from the point where it has its project. -/
theorem addSource_ends (hvalid : state.Valid base) {p : Project} (hp : state.projects.lookup args.project = some p)
    (hfile : w.file = .state state) (hseparate : w.Separate args.project) :
    Ends (Exactly outcome)
      (fun r t => ∀ e, r = .error e → (World.Untouched args.project w t ↔ ¬ AsksAndHarms outcome args w state))
      (match args.existing with
        | some extPath =>
          if args.worktree then
            addExistingWorktree base state args.user args.project args.repoInput args.branchOverride extPath args.opts
          else addExisting state args.project args.repoInput extPath
        | none =>
          let resolved := resolveRepo state args.repoInput
          match state.repos.lookup resolved.name with
          | some entry =>
            if entry.external then
              match entry.externalPath with
              | some extPath => addExisting state args.project resolved.name extPath
              | none => .fail (.noExternalPath resolved.name)
            else addPooled base state args.user args.project args.repoInput args.branchOverride args.opts resolved
          | none => addPooled base state args.user args.project args.repoInput args.branchOverride args.opts resolved)
      w := by
  split
  case h_1 extPath hexisting =>
    split
    case isTrue hworktree => exact addExistingWorktree_ends hwrites hvalid hp hfile hseparate hexisting hworktree
    case isFalse hworktree =>
      refine (addExisting_untouched hwrites hseparate _ _).mono fun r t ht e he => untouched_iff_of_no (ht e he) ?_
      rintro ⟨_, _, hasks, -⟩
      exact hworktree (hasks.existing extPath hexisting).1
  case h_2 hexisting =>
    have hname : args.repoName state = (resolveRepo state args.repoInput).name := by rw [AddArgs.repoName, hexisting]
    dsimp only
    split
    case h_1 entry hentry =>
      split
      case isTrue hexternal =>
        have hno : ¬ AsksAndHarms outcome args w state := by
          rintro ⟨_, entry', hasks, -⟩
          have hentry' := hasks.entry_eq
          rw [← hasks.repo_eq, hname, hentry] at hentry'
          obtain rfl := Option.some.inj hentry'
          rw [hasks.pooled] at hexternal
          cases hexternal
        split
        · exact (addExisting_untouched hwrites hseparate _ _).mono fun r t ht e he => untouched_iff_of_no (ht e he) hno
        · exact fun _ _ => untouched_iff_of_no (World.Untouched.refl _ _) hno
      case isFalse hpooled =>
        refine addPooled_ends hwrites hvalid hp hfile hseparate hexisting fun entry' hentry' => ?_
        rw [hname, hentry] at hentry'
        obtain rfl := Option.some.inj hentry'
        exact Bool.not_eq_true _ ▸ hpooled
    case h_2 hnone =>
      refine addPooled_ends hwrites hvalid hp hfile hseparate hexisting fun entry' hentry' => ?_
      rw [hname, hnone] at hentry'
      cases hentry'

/-- Whether an eviction harms depends on the pool of the state only. -/
theorem asksAndHarms_congr (h : SamePool state state') (file : StateFile) :
    AsksAndHarms outcome args (w.withFile file) state' ↔ AsksAndHarms outcome args w state := by
  have hname : args.repoName state' = args.repoName state := by
    rw [AddArgs.repoName, AddArgs.repoName, resolveRepo, resolveRepo, h.repos]
  constructor
  · rintro ⟨repo, entry, ⟨hexisting, hrepo, hentry, hpooled⟩, owner, slot, entry', hevicts, hloses⟩
    rw [hname] at hrepo
    rw [h.repos] at hentry
    exact ⟨repo, entry, ⟨hexisting, hrepo, hentry, hpooled⟩, owner, slot, entry', (evicts_congr h file).mp hevicts,
      hloses⟩
  · rintro ⟨repo, entry, ⟨hexisting, hrepo, hentry, hpooled⟩, owner, slot, entry', hevicts, hloses⟩
    rw [← hname] at hrepo
    rw [← h.repos] at hentry
    exact ⟨repo, entry, ⟨hexisting, hrepo, hentry, hpooled⟩, owner, slot, entry', (evicts_congr h file).mpr hevicts,
      hloses⟩

theorem evictsInVain_iff (hload : (outcome .load).fails = false) (hfile : w.file = .state state)
    (hknown : state.projects.lookup args.project ≠ none ∨
      w.dirs (w.place args.project) = true ∧ (outcome (.save (state.insertProject args.project))).fails = false) :
    EvictsInVain outcome args w ↔ AsksAndHarms outcome args w state := by
  constructor
  · rintro ⟨state', -, hfile', -, h⟩
    rw [hfile] at hfile'
    cases hfile'
    exact h
  · exact fun h => ⟨state, hload, hfile, hknown, h⟩

include hwrites in
theorem add_ends (hconsistent : w.Consistent base) (hseparate : w.Separate args.project) :
    Ends (Exactly outcome)
      (fun r t => ∀ e, r = .error e → (World.Untouched args.project w t ↔ ¬ EvictsInVain outcome args w))
      (add base args) w := by
  have hrefl := World.Untouched.refl args.project w
  rw [add]
  refine ends_loadOrErr_bind (fun hno _ _ => untouched_iff_of_no hrefl ?_) fun state hload hfile => ?_
  · rintro ⟨state, hload, hfile, -⟩
    rcases hno with ⟨_, rfl, hfails⟩ | hnone
    · rw [hload] at hfails
      cases hfails
    · rw [hfile] at hnone
      cases hnone
  obtain ⟨_, rfl, hload⟩ := hload
  have hvalid := hconsistent state hfile
  rw [ensureProject]
  split
  case isTrue hsome =>
    obtain ⟨p, hp⟩ := Option.isSome_iff_exists.mp hsome
    refine (addSource_ends hwrites hvalid hp hfile hseparate).mono fun r t ht e he => (ht e he).trans ?_
    rw [evictsInVain_iff hload hfile (.inl (by rw [hp]; exact fun h => by cases h))]
  -- the project is added to the state first, which touches no other
  case isFalse hnone =>
    rw [Bool.not_eq_true, Option.isSome_eq_false_iff, Option.isNone_iff_eq_none] at hnone
    refine wp_bind.mpr (ends_look_bind (fun _ => rfl) fun o _ => wp_require_bind (fun hdir => ?_) fun hdir _ _ => ?_)
    · have hsame := samePool_insertProject hnone
      refine ends_save_bind ?_ fun e o ho hfails _ _ => ?_
      · rintro ⟨_, rfl, hsaved⟩
        have hp : (state.insertProject args.project).projects.lookup args.project = some _ := AList.lookup_insert _
        have hwritten : World.Untouched args.project w (w.withFile (.state (state.insertProject args.project))) :=
          World.untouched_write hfile (fun q hq => AList.lookup_insert_ne hq) rfl
        refine (addSource_ends hwrites (hvalid.insertProject hnone) hp rfl (hwritten.separate hseparate)).mono
          fun r t ht e he => ?_
        rw [hwritten.congr_left, ht e he, asksAndHarms_congr hsame,
          evictsInVain_iff hload hfile (.inr ⟨hdir, hsaved⟩)]
      · obtain rfl := ho
        rw [hwrites _ hfails, if_neg Bool.false_ne_true]
        refine untouched_iff_of_no hrefl ?_
        rintro ⟨state', -, hfile', hknown, -⟩
        rw [hfile] at hfile'
        cases hfile'
        rcases hknown with hknown | ⟨-, hsaved⟩
        · exact hknown hnone
        · rw [hfails] at hsaved
          cases hsaved
    · refine untouched_iff_of_no hrefl ?_
      rintro ⟨state', -, hfile', hknown, -⟩
      rw [hfile] at hfile'
      cases hfile'
      rcases hknown with hknown | ⟨hthere, -⟩
      · exact hknown hnone
      · exact absurd (hthere.symm.trans hdir) fun h => by cases h

end Add

theorem World.separate_of_all
    (h : (w.stored.projects.keys.all fun q => q = project ||
      (!(w.place q).isPrefixOf (w.place project) && !(w.place project).isPrefixOf (w.place q))) = true) :
    w.Separate project := by
  intro q hq hknown
  have hmem : q ∈ w.stored.projects.keys := AList.mem_keys.mpr (AList.lookup_isSome.mp (Option.isSome_iff_ne_none.mpr hknown))
  have htest := List.all_eq_true.mp h q hmem
  simp only [hq, decide_false, Bool.false_or, Bool.and_eq_true, Bool.not_eq_true', ← Bool.not_eq_true,
    List.isPrefixOf_iff_prefix] at htest
  exact htest

/-- After the run, an `add` fails and another project is not as it was. -/
def Touches (outcome : Call → Outcome) (args : AddArgs) : Prop :=
  ∃ w e t, run (World.step [['w']]) {} sharedEvents = some w ∧
    exec World.handle outcome (add [['w']] args) w.autoInit = (.error e, t) ∧
    ¬ World.Untouched args.project w.autoInit t

theorem touches_of_any {outcome : Call → Outcome} {args : AddArgs} (hother : ['a'] ≠ args.project)
    (h : ((run (World.step [['w']]) {} sharedEvents).any fun w =>
      match exec World.handle outcome (add [['w']] args) w.autoInit with
      | (.error _, t) => (w.autoInit.stored.projects.lookup ['a']).isSome &&
        ((t.stored.projects.lookup ['a']).isNone ||
          t.links (w.autoInit.place ['a']) ['r'] ≠ w.autoInit.links (w.autoInit.place ['a']) ['r'])
      | _ => false) = true) : Touches outcome args := by
  obtain ⟨w, hrun, hw⟩ := exists_run_of_any h
  split at hw
  case h_1 e t hadd =>
    refine ⟨w, e, t, hrun, hadd, fun huntouched => ?_⟩
    rw [Bool.and_eq_true, Bool.or_eq_true] at hw
    obtain ⟨hsome, hnone | hlink⟩ := hw
    · rw [huntouched.entry ['a'] hother, Option.isNone_iff_eq_none] at hnone
      rw [hnone] at hsome
      cases hsome
    · exact of_decide_eq_true hlink (huntouched.links ['a'] hother (Option.isSome_iff_ne_none.mp hsome) ['r'])
  case h_2 => cases hw

end Builderbot.Pm
