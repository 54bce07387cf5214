import Builderbot.Pm.Eviction

/-!
# Uncommitted work

A slot goes from one project to another as it is: no part of `pm` looks at the working tree, and `git checkout`
keeps the changes that are not committed. So the changes of one project can end up with another.
`run_given_own` says what keeps them apart: no project loses a slot with changes in it, and changes are made
through the link of the project that owns the slot.
-/

namespace Builderbot.Pm

open Program

open Git (Text)

/-- The owner of the slot with the path. -/
def State.ownerOf (state : State) (path : Path) : Option Text :=
  (state.pool.values.flatten.find? fun slot => slot.path = path).bind Slot.owner

def LinkEntry.target : LinkEntry → Option Path
  | .link target => some target
  | .nothing | .directory => none

namespace World

/-- The owner of the slot with the path in the state file. -/
def ownerOf (w : World) (path : Path) : Option Text := w.stored.ownerOf path

/-- A command takes no slot with changes in it from its owner, and changes are made by owners. -/
def Careful (base : Path) (w : World) : WorldEvent → Prop
  | .command c outcome =>
    let t := (exec World.handle outcome (c.program base) w.autoInit).2
    t.file ≠ .broken → ∀ slot ∈ w.stored.pool.values.flatten, ∀ owner ∈ slot.owner,
      t.ownerOf slot.path ≠ some owner → w.editsAt slot.path = []
  | .edit project repo _ =>
    ∀ target ∈ (w.links (w.place project) repo).target, w.ownerOf target = some project
  | .commit _ _ | .removeDir _ => True

instance (base : Path) (w : World) : (event : WorldEvent) → Decidable (w.Careful base event)
  | .command c outcome =>
    inferInstanceAs (Decidable ((exec World.handle outcome (c.program base) w.autoInit).2.file ≠ .broken →
      ∀ slot ∈ w.stored.pool.values.flatten, ∀ owner ∈ slot.owner,
        (exec World.handle outcome (c.program base) w.autoInit).2.ownerOf slot.path ≠ some owner →
          w.editsAt slot.path = []))
  | .edit project repo _ =>
    inferInstanceAs (Decidable (∀ target ∈ (w.links (w.place project) repo).target, w.ownerOf target = some project))
  | .commit _ _ | .removeDir _ => .isTrue trivial

/-- All changes are by the owners of their worktrees. -/
def OwnEdits (w : World) : Prop :=
  w.file ≠ .broken → ∀ path, ∀ e ∈ w.editsAt path, w.ownerOf path = some e.author

variable {w t : World}

theorem editsAt_congr {path : Path} (h : t.worktrees.lookup path = w.worktrees.lookup path) :
    t.editsAt path = w.editsAt path := by
  rw [editsAt, h, editsAt]

theorem Switched.editsAt_eq {path : Path} {branch : Text} (h : w.Switched t path branch) (p : Path) :
    t.editsAt p = w.editsAt p := by
  by_cases hp : p = path
  · subst hp
    obtain ⟨repo, hthere⟩ := h.there
    rw [editsAt, hthere]
    rfl
  · exact editsAt_congr (h.others p hp)

theorem gitCommand_editsAt {path : Path} {branch : Text} {result : Option World}
    (h : ∀ t, result = some t → w.Switched t path branch) (o : Outcome) (p : Path) :
    (w.gitCommand o result).2.editsAt p = w.editsAt p := by
  rcases gitCommand_cases (w := w) o result with ⟨-, hsame⟩ | ⟨t, hresult, heq⟩
  · rw [hsame]
  · rw [heq]
    exact (h t hresult).editsAt_eq p

/-- No call changes what is uncommitted. -/
theorem handle_editsAt (w : World) (c : Call) (o : Outcome) (p : Path) : (w.handle c o).2.editsAt p = w.editsAt p := by
  cases c with
  | checkout path branch => exact gitCommand_editsAt (fun _ => checkout_switched) o p
  | checkoutNew path branch start => exact gitCommand_editsAt (fun _ => checkoutNew_switched) o p
  | worktreeAdd bare path branch => exact gitCommand_editsAt (fun _ => worktreeAdd_switched) o p
  | worktreeAddNew bare path branch start => exact gitCommand_editsAt (fun _ => worktreeAddNew_switched) o p
  | save =>
    rw [handle]
    split
    · split <;> rfl
    · rfl
  | createProjectDir | removeProjectDir | removeLink | symlink | tryCloneBare =>
    rw [handle]
    split <;> rfl
  | _ => rfl

theorem exec_editsAt {α : Type} (outcome : Call → Outcome) (x : Command α) (w : World) (p : Path) :
    (exec World.handle outcome x w).2.editsAt p = w.editsAt p := by
  have hcall : ∀ (s : World) (c : Call) (o : Outcome), s.editsAt p = w.editsAt p →
      (s.handle c o).2.editsAt p = w.editsAt p := fun s c o hs => (handle_editsAt s c o p).trans hs
  exact exec_invariant hcall rfl

/-- A command does not repair the state file. -/
theorem exec_program_broken (base : Path) (c : PmCommand) (outcome : Call → Outcome) (h : w.file = .broken) :
    (exec World.handle outcome (c.program base) w).2.file = .broken := by
  have hload : ∀ f : State → Command Unit, exec World.handle outcome (loadOrErr >>= f) w = (.error .notInitialized, w) := by
    intro f
    have hreply : w.handle .load (outcome .load) = (none, w) := by
      rw [handle, h]
      exact Prod.ext (ite_self _) rfl
    rw [exec_bind, loadOrErr, ask, exec_perform_bind, hreply]
    rfl
  cases c with
  | new name =>
    rw [PmCommand.program, Pm.new, hload]
    exact h
  | add args =>
    rw [PmCommand.program, Pm.add, hload]
    exact h
  | rm name =>
    rw [PmCommand.program, Pm.rm, hload]
    exact h
  | status =>
    rw [PmCommand.program, Pm.status, hload]
    exact h

theorem ownerOf_eq_some {path : Path} {owner : Text} (h : w.ownerOf path = some owner) :
    ∃ slot ∈ w.stored.pool.values.flatten, slot.path = path ∧ slot.owner = some owner := by
  obtain ⟨slot, hfind, howner⟩ := Option.bind_eq_some_iff.mp h
  have hpath : decide (slot.path = path) = true := List.find?_some (p := fun slot : Slot => slot.path = path) hfind
  exact ⟨slot, List.mem_of_find?_eq_some hfind, of_decide_eq_true hpath, howner⟩

theorem autoInit_stored (w : World) : w.autoInit.stored = w.stored := by
  rw [autoInit]
  split
  case h_1 hfile => rw [stored, stored, hfile]; rfl
  · rfl
  · rfl

theorem autoInit_editsAt (w : World) (path : Path) : w.autoInit.editsAt path = w.editsAt path := by
  rw [autoInit]
  split <;> rfl

theorem changeEdits_eq_some {project repo : Text} {f : List Edit → List Edit} (h : w.changeEdits project repo f = some t) :
    ∃ target, w.links (w.place project) repo = .link target ∧ t.file = w.file ∧ t.editsAt target = f (w.editsAt target) ∧
      ∀ path, path ≠ target → t.editsAt path = w.editsAt path := by
  rw [changeEdits] at h
  split at h
  case h_1 target htarget =>
    obtain ⟨wt, hwt, rfl⟩ := Option.map_eq_some_iff.mp h
    refine ⟨target, htarget, rfl, ?_, fun path hpath => editsAt_congr (AList.lookup_insert_ne hpath)⟩
    have hthere : (w.worktrees.insert target { wt with edits := f wt.edits }).lookup target =
        some { wt with edits := f wt.edits } := AList.lookup_insert _
    rw [editsAt, hthere, editsAt, hwt]
    rfl
  · cases h
  · cases h

theorem OwnEdits.command (h : w.OwnEdits) {base : Path} {c : PmCommand} {outcome : Call → Outcome}
    (hcareful : w.Careful base (.command c outcome)) :
    (exec World.handle outcome (c.program base) w.autoInit).2.OwnEdits := by
  intro hreadable path e he
  have hbefore : w.file ≠ .broken := by
    intro hbroken
    refine hreadable (exec_program_broken base c outcome ?_)
    rw [autoInit, hbroken]
    exact hbroken
  rw [exec_editsAt, autoInit_editsAt] at he
  obtain ⟨slot, hslot, rfl, howner⟩ := ownerOf_eq_some (h hbefore path e he)
  -- the author has not lost the slot, which has a change in it
  by_contra hlost
  rw [hcareful hreadable slot hslot e.author howner hlost] at he
  exact absurd he List.not_mem_nil

theorem OwnEdits.step {base : Path} {event : WorldEvent} (h : w.OwnEdits) (hcareful : w.Careful base event)
    (hstep : w.step base event = some t) : t.OwnEdits := by
  cases event with
  | command c outcome =>
    cases hstep
    exact h.command hcareful
  | edit project repo change =>
    obtain ⟨target, hlink, hfile, hthere, hothers⟩ := changeEdits_eq_some hstep
    replace hcareful : w.ownerOf target = some project := hcareful target (by rw [hlink]; rfl)
    intro hreadable path e he
    have howner : t.ownerOf path = w.ownerOf path := by rw [ownerOf, stored, hfile]; rfl
    rw [howner]
    -- the edit is at the target, whose owner is the project by the condition
    by_cases hpath : path = target
    · subst hpath
      rw [hthere, List.mem_cons] at he
      rcases he with rfl | he
      · exact hcareful
      · exact h (hfile ▸ hreadable) path e he
    · rw [hothers path hpath] at he
      exact h (hfile ▸ hreadable) path e he
  | commit project repo =>
    rw [World.step] at hstep
    obtain ⟨target, -, hfile, hthere, hothers⟩ := changeEdits_eq_some hstep
    intro hreadable path e he
    have howner : t.ownerOf path = w.ownerOf path := by rw [ownerOf, stored, hfile]; rfl
    rw [howner]
    by_cases hpath : path = target
    · subst hpath
      rw [hthere] at he
      exact absurd he List.not_mem_nil
    · rw [hothers path hpath] at he
      exact h (hfile ▸ hreadable) path e he
  | removeDir project =>
    cases hstep
    exact h

theorem Fresh.ownEdits (h : w.Fresh) : w.OwnEdits := by
  intro _ path e he
  rw [editsAt, h.worktrees] at he
  exact absurd he List.not_mem_nil

end World

/-- The project gets its own slot, with its change. -/
def givesOwnSlot (w : World) : Bool :=
  match exec World.handle (fun _ => {}) (slotFor [['w']] w.stored ['r'] ['a'] ['z'] {}) w with
  | (.ok (state', index), t) => decide (w.file ≠ .broken) && ((state'.slots ['r'])[index]?).any fun slot =>
    w.ownerOf slot.path = some ['a'] && t.editsAt slot.path = [⟨['a'], 1⟩]
  | _ => false

/-- After the run, the project is given a worktree with a change of another one. -/
def GivenAnothers (events : List WorldEvent) (project branch author : Text) : Prop :=
  ∃ w state' index t slot, run (World.step [['w']]) {} events = some w ∧
    exec World.handle (fun _ => {}) (slotFor [['w']] w.stored ['r'] project branch {}) w = (.ok (state', index), t) ∧
    (state'.slots ['r'])[index]? = some slot ∧ ∃ e ∈ t.editsAt slot.path, e.author = author

theorem givenAnothers_of_any {events : List WorldEvent} {project branch author : Text}
    (h : ((run (World.step [['w']]) {} events).any fun w =>
      match exec World.handle (fun _ => {}) (slotFor [['w']] w.stored ['r'] project branch {}) w with
      | (.ok (state', index), t) => ((state'.slots ['r'])[index]?).any fun slot =>
        (t.editsAt slot.path).any fun e => e.author = author
      | _ => false) = true) : GivenAnothers events project branch author := by
  obtain ⟨w, hrun, hw⟩ := exists_run_of_any h
  split at hw
  case h_1 state' index t hgiven =>
    obtain ⟨slot, hslot, hedits⟩ := (Option.any_eq_true _ _).mp hw
    obtain ⟨e, he, hauthor⟩ := List.any_eq_true.mp hedits
    exact ⟨w, state', index, t, slot, hrun, hgiven, hslot, e, he, of_decide_eq_true hauthor⟩
  case h_2 => cases hw

end Builderbot.Pm
