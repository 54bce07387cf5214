import Builderbot.Pm.World

/-!
# Evictions

When all slots of a repository are taken, `add` can take one from another project. It checks the new branch out
before it removes the link of the owner, so that nothing has happened if `git` fails. `slotFor_fate` says what
becomes of the other projects while a slot is looked for: nothing, or the one eviction that `Evicts` describes.
-/

namespace Builderbot.Pm

open Program

open Git (Text)

/-! ## What an eviction needs -/

/-- The candidate that is chosen. -/
def AddConflictOpts.choice (opts : AddConflictOpts) (outcome : Call → Outcome) (candidates : List EvictionCandidate) :
    Option EvictionCandidate :=
  if opts.growPool then none
  else
    match opts.evict with
    | some target => candidates.find? fun c => c.owner = target
    | none =>
      if (outcome .stdinIsTerminal).terminal then
        let sorted := candidates.insertionSort fun c d => c.lastUsed ≤ d.lastUsed
        (outcome (.menu sorted.length)).selection.bind fun selection => sorted[selection]?
      else none

/-- All the slots that the repository may have are there, and have other owners. -/
def State.Full (state : State) (repo project : Text) (entry : RepoEntry) : Prop :=
  entry.maxSlots ≤ (state.slots repo).length ∧ ∀ s ∈ state.slots repo, s.owner ≠ none ∧ s.owner ≠ some project

/-- There is no slot for the project, one is chosen, and `git` can put the branch into its worktree. -/
structure Evicts (outcome : Call → Outcome) (opts : AddConflictOpts) (w : World) (state : State)
    (project repo branch owner : Text) (slot : Slot) (entry : RepoEntry) : Prop where
  entry_eq : state.repos.lookup repo = some entry
  full : state.Full repo project entry
  chosen : ∃ c, opts.choice outcome (state.candidates repo) = some c ∧ (state.slots repo)[c.slotIndex]? = some slot
  owner_eq : slot.owner = some owner
  prepared : (exec World.handle outcome (prepareSlot slot.path entry.barePath branch) w).1 = .ok ()

/-- The owner has a link, and it can be removed. -/
def LinkGoes (outcome : Call → Outcome) (w : World) (repo owner : Text) : Prop :=
  (∃ target, w.links (w.place owner) repo = .link target) ∧ (outcome (.removeLink owner repo)).fails = false

/-- The owner of the slot loses its link or its branch. -/
def Loses (outcome : Call → Outcome) (w : World) (repo branch owner : Text) (slot : Slot) : Prop :=
  LinkGoes outcome w repo owner ∨ w.headAt slot.path ≠ some branch

/-! ## Worktrees -/

/-- Nothing has changed, or the worktree has the branch. -/
def Prepared (w : World) (path : Path) (branch : Text) (r : Except PmError Unit) (t : World) : Prop :=
  (∀ e, r = .error e → t = w) ∧ (r = .ok () → w.Switched t path branch)

variable {path : Path}

/-- A preparation that fails has changed no head. -/
theorem prepared_error {w : World} {branch : Text} (e : PmError) :
    Prepared w path branch (.error e) w := ⟨fun _ _ => rfl, fun h => by cases h⟩

variable {t : World}

theorem prepared_ok {w : World} {branch : Text} (h : w.Switched t path branch) :
    Prepared w path branch (.ok ()) t := ⟨fun _ h => (by cases h), fun _ => h⟩

section Worktrees

variable {allowed : Call → Outcome → Prop} {w : World} {path : Path} {branch : Text}

/-- A checkout switches the slot, or fails and leaves it. -/
theorem checkout_prepares : Ends allowed (Prepared w path branch) (checkout path branch) w := by
  rw [checkout]
  refine ends_look_bind (fun _ => rfl) fun _ _ =>
    ends_git_bind (fun _ => rfl) (fun _ => prepared_error _) (fun _ => ?_) fun t ht => ?_
  · refine ends_git_bind (fun _ => rfl) (fun _ => prepared_error _) (fun _ => ?_) fun t ht => ?_
    · refine ends_look_bind (fun _ => rfl) fun _ _ =>
        ends_git_bind (fun _ => rfl) (fun _ => prepared_error _) (fun _ => prepared_error _) fun t ht => ?_
      exact prepared_ok (World.checkoutNew_switched ht)
    · exact prepared_ok (World.checkoutNew_switched ht)
  · exact prepared_ok (World.checkout_switched ht)

/-- So does a new worktree. -/
theorem addWorktree_prepares {bare : Path} :
    Ends allowed (Prepared w path branch) (addWorktree bare path branch) w := by
  rw [addWorktree]
  refine ends_look_bind (fun _ => rfl) fun _ _ =>
    ends_git_bind (fun _ => rfl) (fun _ => prepared_error _) (fun _ => ?_) fun t ht => ?_
  · refine ends_look_bind (fun _ => rfl) fun _ _ =>
      ends_git_bind (fun _ => rfl) (fun _ => prepared_error _) (fun _ => prepared_error _) fun t ht => ?_
    exact prepared_ok (World.worktreeAddNew_switched ht)
  · exact prepared_ok (World.worktreeAdd_switched ht)

/-- A slot with a directory is switched, and one without gets a worktree. -/
theorem prepareSlot_prepares {bare : Path} :
    Ends allowed (Prepared w path branch) (prepareSlot path bare branch) w := by
  rw [prepareSlot]
  refine ends_look_bind (fun _ => rfl) fun o _ => ?_
  split
  · exact checkout_prepares
  · exact addWorktree_prepares

end Worktrees

/-! ## The slot -/

/-- The other projects keep their branches, and the other directories their links. -/
structure Spared (project : Text) (state : State) (w t : World) : Prop where
  file : t.file = w.file
  place : t.place = w.place
  links : ∀ dir, dir ≠ w.place project → ∀ r, t.links dir r = w.links dir r
  heads : ∀ q, q ≠ project → ∀ repo (i : ℕ) slot, (state.slots repo)[i]? = some slot → slot.owner = some q →
    t.headAt slot.path = w.headAt slot.path

/-- Nothing has happened yet. -/
theorem Spared.refl (project : Text) (state : State) (w : World) : Spared project state w w :=
  ⟨rfl, rfl, fun _ _ _ => rfl, fun _ _ _ _ _ _ _ => rfl⟩

/-- One project has lost its branch, and its link if that goes. What the directory of the new owner has is left open. -/
structure Evicted (outcome : Call → Outcome) (project repo branch owner : Text) (slot : Slot) (w t : World) : Prop where
  file : t.file = w.file
  place : t.place = w.place
  lost : LinkGoes outcome w repo owner → w.place owner ≠ w.place project → t.links (w.place owner) repo = .nothing
  kept : ¬ LinkGoes outcome w repo owner → w.place owner ≠ w.place project →
    t.links (w.place owner) repo = w.links (w.place owner) repo
  links : ∀ dir r, dir ≠ w.place project → ¬ (dir = w.place owner ∧ r = repo) → t.links dir r = w.links dir r
  head : t.headAt slot.path = some branch
  heads : ∀ path, path ≠ slot.path → t.headAt path = w.headAt path

/-- An eviction took place, or nothing happened to the other projects. -/
def Fate (outcome : Call → Outcome) (opts : AddConflictOpts) (w : World) (state : State)
    (project repo branch : Text) (t : World) : Prop :=
  ((¬ ∃ owner slot entry, Evicts outcome opts w state project repo branch owner slot entry) ∧
      Spared project state w t) ∨
    ∃ owner slot entry, Evicts outcome opts w state project repo branch owner slot entry ∧
      Evicted outcome project repo branch owner slot w t

variable {base : Path} {state : State} {skip : Text → Text → Prop} {repo project branch : Text} {entry : RepoEntry}
variable {w : World}

/-- A switch changes one head. -/
theorem World.Switched.headAt_of_ne {p : Path} (h : w.Switched t path branch) (hp : p ≠ path) :
    t.headAt p = w.headAt p := by
  rw [World.headAt, h.others p hp]
  rfl

theorem World.Switched.headAt_eq (h : w.Switched t path branch) : t.headAt path = some branch := by
  obtain ⟨repo, hthere⟩ := h.there
  rw [World.headAt, hthere]
  rfl

variable {slot : Slot}

/-- A slot that has no other owner can be switched. -/
theorem spared_of_switched {i : ℕ} (hvalid : state.ValidBut base skip)
    (hslot : (state.slots repo)[i]? = some slot) (howner : ∀ q, slot.owner = some q → q = project)
    (h : w.Switched t slot.path branch) : Spared project state w t where
  file := h.file
  place := h.place
  links _ _ _ := by rw [h.links]
  heads q hq repo' j s hs howns := by
    refine h.headAt_of_ne fun hpath => hq (howner q ?_)
    rw [(hvalid.indexed repo' j s hs).2, (hvalid.indexed repo i slot hslot).2] at hpath
    obtain ⟨rfl, rfl⟩ := slotPath_inj hpath
    rw [hslot] at hs
    exact Option.some.inj hs ▸ howns

/-- A state with more slots. -/
theorem Spared.of_le {state' : State} (h : Spared project state' w t)
    (hle : ∀ repo (i : ℕ) slot, (state.slots repo)[i]? = some slot → (state'.slots repo)[i]? = some slot) :
    Spared project state w t :=
  ⟨h.file, h.place, h.links, fun q hq repo i slot hslot howner => h.heads q hq repo i slot (hle repo i slot hslot) howner⟩

/-- Filling the pool keeps the slots that are there. -/
theorem getElem?_fill_of {maxSlots : ℕ} {now : ℤ} {repo' : Text} {i : ℕ}
    (h : (state.slots repo')[i]? = some slot) :
    ((state.fill base repo maxSlots now).slots repo')[i]? = some slot := by
  rw [State.fill, State.slots_setSlots]
  split
  case isTrue heq =>
    subst heq
    exact State.getElem?_fillSlots.mpr (.inl h)
  case isFalse => exact h

variable {allowed : Call → Outcome → Prop}

/-- A project takes a slot that has no other owner. -/
theorem takeSlot_spares {i : ℕ} (hvalid : state.ValidBut base skip)
    (hslot : (state.slots repo)[i]? = some slot) (howner : ∀ q, slot.owner = some q → q = project)
    (entry : RepoEntry) (needsCheckout : Bool) :
    Ends allowed (fun _ t => Spared project state w t)
      (takeSlot state entry repo project branch slot i needsCheckout) w := by
  rw [takeSlot]
  refine ends_look_bind (fun _ => rfl) fun now _ => ?_
  split
  · have hprepares : Ends allowed (Prepared w slot.path branch) (prepareSlot slot.path entry.barePath branch) w :=
      prepareSlot_prepares
    refine hprepares.bind ?_ ?_
    · rintro ⟨⟩ t ht
      exact spared_of_switched hvalid hslot howner (ht.2 rfl)
    · intro e t ht
      obtain rfl := ht.1 e rfl
      exact Spared.refl _ _ _
  · exact Spared.refl _ _ _

/-- A full pool is not filled. -/
theorem State.Full.slots_fill (h : state.Full repo project entry) (now : ℤ) (repo' : Text) :
    (state.fill base repo entry.maxSlots now).slots repo' = state.slots repo' := by
  rw [State.fill, State.slots_setSlots]
  split
  case isTrue heq =>
    rw [fillSlots, Nat.sub_eq_zero_of_le h.1, heq]
    exact List.append_nil _
  case isFalse => rfl

theorem State.Full.candidates_fill (h : state.Full repo project entry) (now : ℤ) :
    (state.fill base repo entry.maxSlots now).candidates repo = state.candidates repo := by
  rw [State.candidates, h.slots_fill now repo]
  rfl

/-- A slot without another owner is there, or can be made. -/
theorem not_full_of_fill {now : ℤ} {i : ℕ}
    (hslot : ((state.fill base repo entry.maxSlots now).slots repo)[i]? = some slot)
    (howner : slot.owner = none ∨ slot.owner = some project) : ¬ state.Full repo project entry := by
  intro hfull
  rw [hfull.slots_fill] at hslot
  obtain ⟨hfree, hown⟩ := hfull.2 slot (List.mem_of_getElem? hslot)
  exact howner.elim hfree hown

/-- The pool is full only if the candidates are asked for. -/
def Acquired (base : Path) (state : State) (repo project : Text) (entry : RepoEntry) (w : World)
    (r : Except PmError (State × AcquireResult)) (t : World) : Prop :=
  Spared project state w t ∧
    match r with
    | .ok (_, .acquired _) => ¬ state.Full repo project entry
    | .ok (state', .needsEviction candidates _) => t = w ∧ state.Full repo project entry ∧
        (∃ now, state' = state.fill base repo entry.maxSlots now) ∧ candidates = state.candidates repo
    | .error _ => state.Full repo project entry → state.candidates repo = []

/-- A free slot is taken without an eviction, and a full pool changes nothing. -/
theorem acquireSlot_acquires (hvalid : state.ValidBut base skip)
    (hentry : state.repos.lookup repo = some entry) (hpooled : entry.external = false) :
    Ends allowed (Acquired base state repo project entry w) (acquireSlot base state repo project branch) w := by
  rw [acquireSlot]
  refine ends_ensureSlots_bind hentry fun now => ?_
  have hfill := hvalid.fill now hentry hpooled
  rw [show (state.fill base repo entry.maxSlots now).repos.lookup repo = some entry from hentry]
  dsimp only
  -- a slot that is the project's own or free is taken
  have htake : ∀ (slot : Slot) (i : ℕ) (needsCheckout : Bool),
      ((state.fill base repo entry.maxSlots now).slots repo)[i]? = some slot →
      (slot.owner = none ∨ slot.owner = some project) →
      Ends allowed (Acquired base state repo project entry w) (do
        let state ← takeSlot (state.fill base repo entry.maxSlots now) entry repo project branch slot i needsCheckout
        return (state, .acquired slot.index)) w := by
    intro slot i needsCheckout hslot howner
    have hown : ∀ q, slot.owner = some q → q = project := by
      intro q hq
      rw [hq] at howner
      exact Option.some.inj (howner.resolve_left fun h => by cases h)
    refine Wp.bind (takeSlot_spares hfill hslot hown entry needsCheckout) ?_ ?_
    · exact fun state' t ht => ⟨ht.of_le fun _ _ _ => getElem?_fill_of, not_full_of_fill hslot howner⟩
    · exact fun e t ht =>
        ⟨ht.of_le fun _ _ _ => getElem?_fill_of, fun hfull => absurd hfull (not_full_of_fill hslot howner)⟩
  split
  case h_1 slot i hfind =>
    obtain ⟨hslot, howner⟩ := getElem?_of_find? hfind
    exact htake slot i _ hslot (.inr (of_decide_eq_true howner))
  case h_2 hnone =>
    split
    case h_1 slot i hfind =>
      obtain ⟨hslot, howner⟩ := getElem?_of_find? hfind
      exact htake slot i _ hslot (.inl (of_decide_eq_true howner))
    case h_2 hused =>
      have hall : ∀ s ∈ (state.fill base repo entry.maxSlots now).slots repo,
          s.owner ≠ none ∧ s.owner ≠ some project := by
        intro s hs
        obtain ⟨i, hi⟩ := List.mem_iff_getElem?.mp hs
        exact ⟨fun h => not_of_find?_none hused hi (decide_eq_true h),
          fun h => not_of_find?_none hnone hi (decide_eq_true h)⟩
      have hfull : state.Full repo project entry := by
        constructor
        · by_contra hlt
          have hnew : ((state.fill base repo entry.maxSlots now).slots repo)[(state.slots repo).length]? =
              some (newSlot base repo now (state.slots repo).length) := by
            rw [State.fill, State.slots_setSlots, if_pos rfl]
            exact State.getElem?_fillSlots.mpr (.inr ⟨le_rfl, Nat.lt_of_not_le hlt, rfl⟩)
          exact (hall _ (List.mem_of_getElem? hnew)).1 rfl
        · intro s hs
          obtain ⟨i, hi⟩ := List.mem_iff_getElem?.mp hs
          exact hall s (List.mem_of_getElem? (getElem?_fill_of hi))
      split
      case isTrue hempty => exact ⟨Spared.refl _ _ _, fun _ => (hfull.candidates_fill now).symm.trans hempty⟩
      case isFalse => exact ⟨Spared.refl _ _ _, rfl, hfull, ⟨now, rfl⟩, hfull.candidates_fill now⟩

/-- An added slot costs no project its own. -/
theorem growAndAcquire_spares (hvalid : state.ValidBut base skip)
    (hentry : state.repos.lookup repo = some entry) (hpooled : entry.external = false) :
    Ends allowed (fun _ t => Spared project state w t) (growAndAcquire base state repo project branch) w := by
  rw [growAndAcquire, hentry]
  have hgrown := hvalid.grow hentry
  have hentry' : (state.repos.insert repo { entry with maxSlots := entry.maxSlots + 1 }).lookup repo =
      some { entry with maxSlots := entry.maxSlots + 1 } := AList.lookup_insert _
  refine ends_ensureSlots_bind hentry' fun now => ?_
  have hfill := hgrown.fill now hentry' hpooled
  split
  case h_1 => exact Spared.refl _ _ _
  case h_2 slot i hfind =>
    obtain ⟨hslot, howner⟩ := getElem?_of_find? hfind
    have hfree : ∀ q, slot.owner = some q → q = project := by
      intro q hq
      rw [of_decide_eq_true howner] at hq
      cases hq
    refine Wp.bind (takeSlot_spares hfill hslot hfree _ true) ?_ ?_
    · exact fun state' t ht => ht.of_le fun _ _ _ h => getElem?_fill_of h
    · exact fun e t ht => ht.of_le fun _ _ _ h => getElem?_fill_of h

section Eviction

variable {outcome : Call → Outcome} {owner : Text} {slot : Slot} {i : ℕ}

/-- The calls end as they are given. -/
abbrev Exactly (outcome : Call → Outcome) : Call → Outcome → Prop := fun c o => o = outcome c

/-- The owner keeps its link if it is not one that goes. -/
theorem World.Switched.evicted_kept (h : w.Switched t slot.path branch) (hkept : ¬ LinkGoes outcome w repo owner) :
    Evicted outcome project repo branch owner slot w t where
  file := h.file
  place := h.place
  lost hlost := absurd hlost hkept
  kept _ _ := by rw [h.links]
  links _ _ _ _ := by rw [h.links]
  head := h.headAt_eq
  heads _ hpath := h.headAt_of_ne hpath

/-- The link of the owner is gone. -/
theorem World.Switched.evicted_lost (h : w.Switched t slot.path branch) (hlost : LinkGoes outcome w repo owner) :
    Evicted outcome project repo branch owner slot w (t.setLink (w.place owner) repo .nothing) where
  file := h.file
  place := h.place
  lost _ _ := by rw [World.links_setLink, if_pos ⟨rfl, rfl⟩]
  kept hkept := absurd hlost hkept
  links dir r _ hne := by rw [World.links_setLink, if_neg hne, h.links]
  head := h.headAt_eq
  heads _ hpath := h.headAt_of_ne hpath

/-- After the switch the owner is struck off the list, and its link may go. -/
theorem evictOwner_evicts (h : w.Switched t slot.path branch) :
    Ends (Exactly outcome) (fun r u => (∃ state', r = .ok state') ∧ Evicted outcome project repo branch owner slot w u)
      (evictOwner state repo (some owner)) t := by
  rw [evictOwner]
  refine ends_look_bind (fun _ => rfl) fun o _ => ?_
  split
  case isTrue hexists =>
    have hthere : w.links (w.place owner) repo ≠ .nothing := h.links ▸ h.place ▸ of_decide_eq_true hexists
    refine ends_ask_bind ?_
    rintro _ rfl
    refine ⟨⟨_, rfl⟩, ?_⟩
    rw [World.handle, h.links, h.place]
    split
    case isTrue hstays =>
      refine h.evicted_kept ?_
      rintro ⟨⟨target, htarget⟩, hfails⟩
      rw [hfails, htarget, Bool.false_or, decide_eq_true_eq] at hstays
      cases hstays
    case isFalse hgone =>
      rw [Bool.or_eq_true, not_or, Bool.not_eq_true, decide_eq_true_eq] at hgone
      refine h.evicted_lost ⟨?_, hgone.1⟩
      cases hlink : w.links (w.place owner) repo with
      | nothing => exact absurd hlink hthere
      | link target => exact ⟨target, rfl⟩
      | directory => exact absurd hlink hgone.2
  case isFalse hmissing =>
    have hnothing : w.links (w.place owner) repo = .nothing := by
      rw [← h.links, ← h.place]
      by_contra hne
      exact hmissing (decide_eq_true hne)
    refine ⟨⟨_, rfl⟩, h.evicted_kept ?_⟩
    rintro ⟨⟨target, htarget⟩, -⟩
    rw [hnothing] at htarget
    cases htarget

/-- The owner loses its slot only if the slot could be prepared for the other project. -/
theorem executeEviction_evicts (hentry : state.repos.lookup repo = some entry)
    (hslot : (state.slots repo)[i]? = some slot) (howner : slot.owner = some owner) :
    Ends (Exactly outcome) (fun _ t =>
        if (exec World.handle outcome (prepareSlot slot.path entry.barePath branch) w).1 = .ok () then
          Evicted outcome project repo branch owner slot w t
        else t = w)
      (executeEviction state repo i project branch) w := by
  rw [executeEviction, hentry, hslot]
  refine wp_bind.mpr (wp_eq_iff.mpr ?_)
  have hprepares : Ends (Exactly outcome) (Prepared w slot.path branch) (prepareSlot slot.path entry.barePath branch) w :=
    prepareSlot_prepares
  have hprepared := hprepares.exec fun _ => rfl
  generalize hrun : exec World.handle outcome (prepareSlot slot.path entry.barePath branch) w = result at hprepared
  obtain ⟨r, t⟩ := result
  cases r with
  | error e => exact hprepared.1 e rfl
  | ok =>
    suffices hevicted : Ends (Exactly outcome) (fun _ u => Evicted outcome project repo branch owner slot w u)
        (evictOwner state repo slot.owner >>= fun state => do
          let now : ℤ ← ask .now
          return (state.setSlot repo i (Slot.take project branch now), i)) t from
      hevicted.mono fun _ u hu => (if_pos rfl).mpr hu
    have hevict : Ends (Exactly outcome)
        (fun r u => (∃ state', r = .ok state') ∧ Evicted outcome project repo branch owner slot w u)
        (evictOwner state repo (some owner)) t := evictOwner_evicts (hprepared.2 rfl)
    rw [howner]
    refine Wp.bind hevict ?_ ?_
    · exact fun _ u hu => ends_look_bind (fun _ => rfl) fun _ _ => hu.2
    · rintro e u ⟨⟨_, h⟩, _⟩
      cases h

variable {opts : AddConflictOpts}

/-- There is only one eviction that can take place. -/
theorem Evicts.unique {owner' : Text} {slot' : Slot} {entry' : RepoEntry}
    (h : Evicts outcome opts w state project repo branch owner slot entry)
    (h' : Evicts outcome opts w state project repo branch owner' slot' entry') :
    owner' = owner ∧ slot' = slot ∧ entry' = entry := by
  obtain ⟨c, hc, hslot⟩ := h.chosen
  obtain ⟨c', hc', hslot'⟩ := h'.chosen
  obtain rfl : c = c' := Option.some.inj (hc.symm.trans hc')
  obtain rfl : slot = slot' := Option.some.inj (hslot.symm.trans hslot')
  exact ⟨Option.some.inj (h'.owner_eq.symm.trans h.owner_eq), rfl,
    Option.some.inj (h'.entry_eq.symm.trans h.entry_eq)⟩

/-- Where nothing is chosen, nobody is evicted. -/
theorem fate_of_choice_none (hchoice : opts.choice outcome (state.candidates repo) = none)
    (h : Spared project state w t) : Fate outcome opts w state project repo branch t := by
  refine .inl ⟨?_, h⟩
  rintro ⟨_, _, _, hevicts⟩
  obtain ⟨c, hc, -⟩ := hevicts.chosen
  rw [hchoice] at hc
  cases hc

variable (hvalid : state.ValidBut base skip) (hentry : state.repos.lookup repo = some entry)
  (hpooled : entry.external = false) (hfull : state.Full repo project entry) (now : ℤ)

include hentry hfull in

/-- The eviction of the candidate that was chosen. -/
theorem executeEviction_fate {c : EvictionCandidate}
    (hchoice : opts.choice outcome (state.candidates repo) = some c) :
    Ends (Exactly outcome) (fun _ t => Fate outcome opts w state project repo branch t)
      (executeEviction (state.fill base repo entry.maxSlots now) repo c.slotIndex project branch) w := by
  have hentry' : (state.fill base repo entry.maxSlots now).repos.lookup repo = some entry := hentry
  rcases hslot : (state.slots repo)[c.slotIndex]? with _ | slot
  · rw [executeEviction, hentry', hfull.slots_fill, hslot]
    show Fate outcome opts w state project repo branch w
    refine .inl ⟨?_, Spared.refl _ _ _⟩
    rintro ⟨_, slot', _, hevicts⟩
    obtain ⟨c', hc', hslot'⟩ := hevicts.chosen
    obtain rfl := Option.some.inj (hchoice.symm.trans hc')
    rw [hslot] at hslot'
    cases hslot'
  · obtain ⟨owner, howner⟩ :=
      Option.ne_none_iff_exists'.mp (hfull.2 slot (List.mem_of_getElem? hslot)).1
    have hslot' : ((state.fill base repo entry.maxSlots now).slots repo)[c.slotIndex]? = some slot := by
      rw [hfull.slots_fill]
      exact hslot
    refine (executeEviction_evicts hentry' hslot' howner).mono fun _ t ht => ?_
    split at ht
    case isTrue hprepared =>
      exact .inr ⟨owner, slot, entry, ⟨hentry, hfull, ⟨c, hchoice, hslot⟩, howner, hprepared⟩, ht⟩
    case isFalse hfailed =>
      obtain rfl := ht
      refine .inl ⟨?_, Spared.refl _ _ _⟩
      rintro ⟨owner', slot', entry', hevicts⟩
      obtain ⟨c', hc', hslot'⟩ := hevicts.chosen
      obtain rfl := Option.some.inj (hchoice.symm.trans hc')
      obtain rfl := Option.some.inj (hslot.symm.trans hslot')
      obtain rfl := Option.some.inj (hentry.symm.trans hevicts.entry_eq)
      exact hfailed hevicts.prepared

include hvalid hentry hpooled hfull in

/-- The options and the answers of the user decide who is evicted. -/
theorem resolveEviction_fate (n : ℕ) :
    Ends (Exactly outcome) (fun _ t => Fate outcome opts w state project repo branch t)
      (resolveEviction base (state.fill base repo entry.maxSlots now) repo (state.candidates repo) n project branch opts)
      w := by
  have hgrow : opts.choice outcome (state.candidates repo) = none →
      Ends (Exactly outcome) (fun _ t => Fate outcome opts w state project repo branch t)
        (growAndAcquire base (state.fill base repo entry.maxSlots now) repo project branch) w := by
    intro hchoice
    have hspares : Ends (Exactly outcome) (fun _ t => Spared project (state.fill base repo entry.maxSlots now) w t)
        (growAndAcquire base (state.fill base repo entry.maxSlots now) repo project branch) w :=
      growAndAcquire_spares (hvalid.fill now hentry hpooled) hentry hpooled
    exact hspares.mono fun _ t ht => fate_of_choice_none hchoice (ht.of_le fun _ _ _ => getElem?_fill_of)
  rw [resolveEviction]
  split
  case isTrue hgrowPool => exact hgrow (by rw [AddConflictOpts.choice, if_pos hgrowPool])
  case isFalse hgrowPool =>
    have hchoice : opts.choice outcome (state.candidates repo) = _ := if_neg hgrowPool
    -- no project is named: the menu decides, where there is a terminal
    rcases hevict : opts.evict with _ | target
    · rw [hevict] at hchoice
      dsimp only at hchoice ⊢
      refine ends_ask_bind ?_
      rintro _ rfl
      show Ends _ _ (if (outcome .stdinIsTerminal).terminal = true then _ else _) w
      split
      case isTrue hterminal =>
        rw [if_pos hterminal] at hchoice
        rw [interactiveEvictionMenu]
        refine ends_ask_bind ?_
        rintro _ rfl
        generalize hsorted : (state.candidates repo).insertionSort (fun c d => c.lastUsed ≤ d.lastUsed) = sorted
        rw [hsorted] at hchoice
        have hreply : w.handle (.menu sorted.length) (outcome (.menu sorted.length)) =
            ((outcome (.menu sorted.length)).selection, w) := rfl
        rw [hreply]
        rcases hselection : (outcome (.menu sorted.length)).selection with _ | selection
        · rw [hselection] at hchoice
          exact fate_of_choice_none hchoice (Spared.refl _ _ _)
        · rw [hselection, Option.bind_some] at hchoice
          dsimp only
          split
          case h_1 c hc => exact executeEviction_fate hentry hfull now (hchoice.trans hc)
          -- the entry below the candidates grows the pool
          case h_2 hc =>
            split
            · exact hgrow (hchoice.trans hc)
            · exact fate_of_choice_none (hchoice.trans hc) (Spared.refl _ _ _)
      case isFalse hterminal =>
        rw [if_neg hterminal] at hchoice
        exact fate_of_choice_none hchoice (Spared.refl _ _ _)
    · rw [hevict] at hchoice
      dsimp only at hchoice ⊢
      split
      case h_1 c hfind => exact executeEviction_fate hentry hfull now (hchoice.trans hfind)
      case h_2 hfind => exact fate_of_choice_none (hchoice.trans hfind) (Spared.refl _ _ _)

/-- Without candidates there is nothing to choose. -/
theorem choice_nil : opts.choice outcome [] = none := by
  rw [AddConflictOpts.choice]
  split
  · rfl
  split
  · rfl
  split
  · exact Option.bind_fun_none _
  · rfl

include hvalid hentry hpooled in

/-- The pool is filled first; it is full if someone has to be evicted. -/
theorem slotFor_fate :
    Ends (Exactly outcome) (fun _ t => Fate outcome opts w state project repo branch t)
      (slotFor base state repo project branch opts) w := by
  rw [slotFor]
  refine Wp.bind (acquireSlot_acquires hvalid hentry hpooled) ?_ ?_
  · rintro ⟨state', result⟩ t ⟨hspared, ht⟩
    cases result with
    | acquired index =>
      refine .inl ⟨?_, hspared⟩
      rintro ⟨_, _, entry', hevicts⟩
      obtain rfl := Option.some.inj (hentry.symm.trans hevicts.entry_eq)
      exact ht hevicts.full
    | needsEviction candidates n =>
      obtain ⟨rfl, hfull, ⟨now, rfl⟩, rfl⟩ := ht
      exact resolveEviction_fate hvalid hentry hpooled hfull now n
  · rintro e t ⟨hspared, ht⟩
    refine .inl ⟨?_, hspared⟩
    rintro ⟨_, _, entry', hevicts⟩
    obtain rfl := Option.some.inj (hentry.symm.trans hevicts.entry_eq)
    obtain ⟨c, hc, -⟩ := hevicts.chosen
    rw [ht hevicts.full, choice_nil] at hc
    cases hc

end Eviction

/-! ## The state that asks for the slot -/

/-- The name of a project that keeps its slots. -/
def State.pin (state : State) (key : Text) : Option Text :=
  (state.projects.lookup key).bind fun p => if p.pinned then some p.name else none

/-- The pinned names are those of the projects with a pin. -/
theorem mem_pinned_iff {name : Text} :
    name ∈ (state.projects.values.filter fun p => p.pinned).map (fun p => p.name) ↔ ∃ key, state.pin key = some name := by
  rw [List.mem_map]
  constructor
  · rintro ⟨p, hp, rfl⟩
    obtain ⟨hvalue, hpinned⟩ := List.mem_filter.mp hp
    obtain ⟨key, hkey⟩ := Table.mem_values.mp hvalue
    refine ⟨key, ?_⟩
    rw [State.pin, hkey, Option.bind_some, if_pos hpinned]
  · rintro ⟨key, hkey⟩
    obtain ⟨p, hp, h⟩ := Option.bind_eq_some_iff.mp hkey
    split at h
    case isTrue hpinned => exact ⟨p, List.mem_filter.mpr ⟨Table.mem_values.mpr ⟨key, hp⟩, hpinned⟩, Option.some.inj h⟩
    case isFalse => cases h

/-- For the pool, two states are the same. -/
structure SamePool (state state' : State) : Prop where
  repos : state'.repos = state.repos
  slots : ∀ repo, state'.slots repo = state.slots repo
  pin : ∀ key, state'.pin key = state.pin key

/-- Candidates depend on the pool only. -/
theorem SamePool.candidates {state' : State} (h : SamePool state state') (repo : Text) :
    state'.candidates repo = state.candidates repo := by
  rw [State.candidates, State.candidates, h.slots]
  congr 1
  refine List.filter_congr fun s _ => ?_
  rcases s.owner with _ | o
  · rfl
  · rw [Option.all_some, Option.all_some, Bool.eq_iff_iff, Bool.not_eq_true', Bool.not_eq_true',
      ← Bool.not_eq_true, ← Bool.not_eq_true, List.contains_iff_mem, List.contains_iff_mem, mem_pinned_iff, mem_pinned_iff]
    simp only [h.pin]

/-- Listing a repository leaves the pool as it is. -/
theorem samePool_listRepo (state : State) (project repo branch : Text) :
    SamePool state (state.listRepo project repo branch) where
  repos := State.repos_listRepo _ _ _
  slots := State.slots_listRepo _ _ _
  pin key := by
    rw [State.listRepo]
    split
    case h_1 p hp =>
      by_cases hkey : key = project
      · subst hkey
        rw [State.pin, State.pin, AList.lookup_insert, hp]
        rfl
      · rw [State.pin, State.pin, AList.lookup_insert_ne hkey]
    case h_2 => rfl

/-- A new project has no slots. -/
theorem samePool_insertProject (hnew : state.projects.lookup project = none) :
    SamePool state (state.insertProject project) where
  repos := rfl
  slots _ := rfl
  pin key := by
    rw [State.insertProject]
    by_cases hkey : key = project
    · subst hkey
      rw [State.pin, State.pin, AList.lookup_insert, hnew]
      rfl
    · rw [State.pin, State.pin, AList.lookup_insert_ne hkey]

/-! ## `git` does not see the state file -/

namespace World

variable (file : StateFile)

/-- The next lemmas say that git does not look at the state file. -/
theorem checkout_withFile (w : World) (path : Path) (branch : Text) :
    (w.withFile file).checkout path branch = (w.checkout path branch).map (·.withFile file) := by
  rw [checkout, checkout]
  show (w.worktrees.lookup path).bind _ = _
  rcases w.worktrees.lookup path with _ | wt
  · rfl
  show (if w.heldElsewhere wt.repo path branch then none else if w.hasBranch wt.repo branch then _ else
    if (w.git wt.repo).remote.contains branch then _ else none) = _
  rw [Option.bind_some]
  split_ifs
  all_goals rfl

theorem checkoutNew_withFile (w : World) (path : Path) (branch start : Text) :
    (w.withFile file).checkoutNew path branch start = (w.checkoutNew path branch start).map (·.withFile file) := by
  rw [checkoutNew, checkoutNew]
  show (w.worktrees.lookup path).bind _ = _
  rcases w.worktrees.lookup path with _ | wt
  · rfl
  show (if w.hasBranch wt.repo branch then none else if (w.git wt.repo).remote.contains start then _ else none) = _
  rw [Option.bind_some]
  split_ifs
  all_goals rfl

theorem worktreeAdd_withFile (w : World) (bare path : Path) (branch : Text) :
    (w.withFile file).worktreeAdd bare path branch = (w.worktreeAdd bare path branch).map (·.withFile file) := by
  rw [worktreeAdd, worktreeAdd]
  show (if (w.worktrees.lookup path).isSome then none else if w.hasBranch (w.repoOf bare) branch ||
    (w.git (w.repoOf bare)).remote.contains branch then _ else none) = _
  split_ifs
  all_goals rfl

theorem worktreeAddNew_withFile (w : World) (bare path : Path) (branch start : Text) :
    (w.withFile file).worktreeAddNew bare path branch start =
      (w.worktreeAddNew bare path branch start).map (·.withFile file) := by
  rw [worktreeAddNew, worktreeAddNew]
  show (if (w.worktrees.lookup path).isSome || w.hasBranch (w.repoOf bare) branch then none else
    if (w.git (w.repoOf bare)).remote.contains start then _ else none) = _
  split_ifs
  all_goals rfl

theorem gitCommand_withFile (w : World) (o : Outcome) {result result' : Option World}
    (h : result' = result.map (·.withFile file)) :
    (w.withFile file).gitCommand o result' = ((w.gitCommand o result).1, (w.gitCommand o result).2.withFile file) := by
  subst h
  unfold gitCommand
  split
  · rfl
  split
  · rfl
  rcases result with _ | t
  · rfl
  · rfl

end World

/-- The calls that prepare a slot. -/
def Prepares : Call → Prop
  | .pathExists _ | .fetch _ | .defaultBranch _ | .checkout _ _ | .checkoutNew _ _ _ | .worktreeAdd _ _ _
  | .worktreeAddNew _ _ _ _ => True
  | _ => False

/-- Calls that prepare a slot act alike on worlds with different state files. -/
theorem handle_withFile (file : StateFile) (w : World) (c : Call) (o : Outcome) (hc : Prepares c) :
    (w.withFile file).handle c o = ((w.handle c o).1, (w.handle c o).2.withFile file) := by
  cases c with
  | pathExists | fetch | defaultBranch => rfl
  | checkout path branch => exact w.gitCommand_withFile file o (w.checkout_withFile file path branch)
  | checkoutNew path branch start => exact w.gitCommand_withFile file o (w.checkoutNew_withFile file path branch start)
  | worktreeAdd bare path branch => exact w.gitCommand_withFile file o (w.worktreeAdd_withFile file bare path branch)
  | worktreeAddNew bare path branch start =>
    exact w.gitCommand_withFile file o (w.worktreeAddNew_withFile file bare path branch start)
  | _ => cases hc

/-- A program that makes only such calls. -/
abbrev Preparing {α : Type} (x : Command α) : Prop := Sound Prepares (fun _ _ => True) (fun _ => True) x

theorem preparing_exitStatus_bind {α : Type} {c : Call} {status : Reply c → ExitStatus} {f : Bool → Command α}
    (hc : Prepares c) (hf : ∀ success, Preparing (f success)) : Preparing (exitStatus c status >>= f) := by
  refine sound_bind.mpr (sound_perform_bind.mpr ⟨hc, fun r _ => ?_⟩)
  split
  · exact hf _
  · trivial

theorem preparing_checkout (path : Path) (branch : Text) : Preparing (checkout path branch) := by
  rw [checkout]
  refine ⟨trivial, fun _ _ => preparing_exitStatus_bind trivial fun success => ?_⟩
  split
  · trivial
  refine preparing_exitStatus_bind trivial fun success => ?_
  split
  · trivial
  refine ⟨trivial, fun _ _ => preparing_exitStatus_bind trivial fun success => ?_⟩
  exact sound_require.mpr fun _ => trivial

theorem preparing_addWorktree (bare path : Path) (branch : Text) : Preparing (addWorktree bare path branch) := by
  rw [addWorktree]
  refine ⟨trivial, fun _ _ => preparing_exitStatus_bind trivial fun success => ?_⟩
  split
  · trivial
  refine ⟨trivial, fun _ _ => preparing_exitStatus_bind trivial fun success => ?_⟩
  exact sound_require.mpr fun _ => trivial

/-- Preparing a slot is made of such calls. -/
theorem preparing_prepareSlot (path bare : Path) (branch : Text) : Preparing (prepareSlot path bare branch) := by
  rw [prepareSlot]
  refine ⟨trivial, fun r _ => ?_⟩
  show Preparing (if r = true then _ else _)
  split
  · exact preparing_checkout path branch
  · exact preparing_addWorktree bare path branch

/-! ## What `add` asks for -/

/-- The name of the repository that is added. -/
def AddArgs.repoName (args : AddArgs) (state : State) : Text :=
  match args.existing with
  | some _ => existingName args.repoInput
  | none => (resolveRepo state args.repoInput).name

end Builderbot.Pm
