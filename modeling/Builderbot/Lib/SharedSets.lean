import Mathlib.Data.List.Basic

/-!
# Two sets over one registration

A set of wanted things is registered somewhere, and another set shares the registration without a count.
`sync` makes the set equal to what is desired. It unregisters what it drops unless the other set has it, and
registers what it adds unless the other set has it. Registering can fail, and then the thing is not added.

`sync_registered` says that what is registered stays the union of both sets, and `mem_sync_own` what the set
is afterwards. Neither depends on the order of the lists.
-/

namespace Builderbot.SharedSets

variable {α : Type*}

/-- The state of the loops of `sync`. -/
structure Loop (α : Type*) where
  own : List α
  registered : List α
  /-- What could not be registered. -/
  failed : List α := []
  /-- What was unregistered, each with the set at that time. -/
  removals : List (α × List α) := []

variable [DecidableEq α] (desired other : List α) (addOk : α → Bool)

def dropStep (s : Loop α) (a : α) : Loop α :=
  if a ∈ desired then s
  else
    let own := s.own.filter fun b => b ≠ a
    if a ∈ other then { s with own }
    else
      { s with
        own
        registered := s.registered.filter fun b => b ≠ a
        removals := (a, own) :: s.removals }

def addStep (s : Loop α) (a : α) : Loop α :=
  if a ∈ s.own then s
  else if a ∈ other then { s with own := a :: s.own }
  else if addOk a then { s with own := a :: s.own, registered := a :: s.registered }
  else { s with failed := a :: s.failed }

def sync (own registered : List α) : Loop α :=
  desired.foldl (addStep other addOk) (own.foldl (dropStep desired other) { own, registered })

variable {desired other : List α} {addOk : α → Bool} {s : Loop α} {a b : α}

/-! ## What is registered -/

/-- What is registered is what is in one of the sets, and nothing was unregistered that one of them had. -/
structure Shared (other : List α) (s : Loop α) : Prop where
  registered_iff : ∀ a, a ∈ s.registered ↔ a ∈ s.own ∨ a ∈ other
  removed : ∀ r ∈ s.removals, r.1 ∉ r.2 ∧ r.1 ∉ other

theorem Shared.dropStep (h : Shared other s) (a : α) : Shared other (dropStep desired other s a) := by
  rw [SharedSets.dropStep]
  split
  · exact h
  dsimp only
  split
  case isTrue hother =>
    refine ⟨fun b => ?_, h.removed⟩
    show b ∈ s.registered ↔ b ∈ s.own.filter _ ∨ b ∈ other
    rw [h.registered_iff, List.mem_filter]
    by_cases hb : b = a
    · subst hb
      simp [hother]
    · simp [hb]
  case isFalse hother =>
    constructor
    · intro b
      show b ∈ s.registered.filter _ ↔ b ∈ s.own.filter _ ∨ b ∈ other
      rw [List.mem_filter, List.mem_filter, h.registered_iff]
      by_cases hb : b = a
      · subst hb
        simp [hother]
      · simp [hb]
    · intro r hr
      rcases List.mem_cons.mp hr with rfl | hr
      · exact ⟨by simp, hother⟩
      · exact h.removed r hr

theorem Shared.addStep (h : Shared other s) (a : α) : Shared other (addStep other addOk s a) := by
  rw [SharedSets.addStep]
  split
  · exact h
  split
  case isTrue hother =>
    refine ⟨fun b => ?_, h.removed⟩
    show b ∈ s.registered ↔ b ∈ a :: s.own ∨ b ∈ other
    rw [h.registered_iff, List.mem_cons]
    constructor
    · rintro (hb | hb)
      · exact .inl (.inr hb)
      · exact .inr hb
    · rintro ((rfl | hb) | hb)
      · exact .inr hother
      · exact .inl hb
      · exact .inr hb
  split
  · refine ⟨fun b => ?_, h.removed⟩
    show b ∈ a :: s.registered ↔ b ∈ a :: s.own ∨ b ∈ other
    rw [List.mem_cons, List.mem_cons, h.registered_iff, or_assoc]
  · exact ⟨h.registered_iff, h.removed⟩

/-- `sync` keeps the registration the union of the sets. -/
theorem sync_shared {own registered : List α} (h : ∀ a, a ∈ registered ↔ a ∈ own ∨ a ∈ other) :
    Shared other (sync desired other addOk own registered) := by
  have hstart : Shared other { own, registered } := ⟨h, fun r hr => absurd hr List.not_mem_nil⟩
  have hdropped : Shared other (own.foldl (SharedSets.dropStep desired other) { own, registered }) :=
    List.foldlRecOn own _ hstart fun s hs a _ => hs.dropStep a
  exact List.foldlRecOn desired _ hdropped fun s hs a _ => hs.addStep a

/-! ## What the set is afterwards -/

theorem mem_addStep_own :
    b ∈ (addStep other addOk s a).own ↔ b ∈ s.own ∨ (b = a ∧ (a ∈ other ∨ addOk a = true)) := by
  rw [addStep]
  split
  case isTrue hown =>
    constructor
    · exact .inl
    · rintro (hb | ⟨rfl, -⟩)
      · exact hb
      · exact hown
  split
  case isTrue hother => simp [hother, or_comm]
  split
  case isTrue hok => simp [hok, or_comm]
  case isFalse hother hok => simp [hother, hok]

theorem mem_adds_own (l : List α) :
    b ∈ (l.foldl (addStep other addOk) s).own ↔ b ∈ s.own ∨ (b ∈ l ∧ (b ∈ other ∨ addOk b = true)) := by
  induction l generalizing s with
  | nil => simp
  | cons a l ih =>
    rw [List.foldl_cons, ih, mem_addStep_own, List.mem_cons]
    constructor
    · rintro ((hb | ⟨rfl, hadd⟩) | ⟨hb, hadd⟩)
      · exact .inl hb
      · exact .inr ⟨.inl rfl, hadd⟩
      · exact .inr ⟨.inr hb, hadd⟩
    · rintro (hb | ⟨rfl | hb, hadd⟩)
      · exact .inl (.inl hb)
      · exact .inl (.inr ⟨rfl, hadd⟩)
      · exact .inr ⟨hb, hadd⟩

/-! ## What could not be registered -/

/-- Only what could not be registered has failed. -/
theorem addOk_of_mem_sync_failed {own registered : List α}
    (hb : b ∈ (sync desired other addOk own registered).failed) : addOk b = false := by
  have hdropped : ∀ c ∈ (own.foldl (dropStep desired other) { own, registered }).failed, addOk c = false := by
    refine List.foldlRecOn (motive := fun s : Loop α => ∀ c ∈ s.failed, addOk c = false) own _ (by simp) fun s hs a _ => ?_
    rw [dropStep]
    split
    · exact hs
    · dsimp only
      split <;> exact hs
  refine List.foldlRecOn (motive := fun s : Loop α => ∀ c ∈ s.failed, addOk c = false) desired _ hdropped
    (fun s hs a _ => ?_) b hb
  rw [addStep]
  split
  · exact hs
  split
  · exact hs
  split
  · exact hs
  case isFalse hok => exact List.forall_mem_cons.mpr ⟨Bool.eq_false_iff.mpr hok, hs⟩

theorem mem_addStep_failed (hb : b ∈ s.failed) : b ∈ (addStep other addOk s a).failed := by
  rw [addStep]
  split
  · exact hb
  split
  · exact hb
  split
  · exact hb
  · exact List.mem_cons_of_mem _ hb

theorem mem_adds_failed (l : List α) (hb : b ∈ s.failed) : b ∈ (l.foldl (addStep other addOk) s).failed := by
  induction l generalizing s with
  | nil => exact hb
  | cons a l ih => exact ih (mem_addStep_failed hb)

theorem mem_adds_failed_or_own {l : List α} (hb : b ∈ l) :
    b ∈ (l.foldl (addStep other addOk) s).failed ∨ b ∈ (l.foldl (addStep other addOk) s).own := by
  obtain ⟨pre, post, rfl⟩ := List.append_of_mem hb
  rw [List.foldl_append, List.foldl_cons]
  generalize pre.foldl (addStep other addOk) s = s
  have hstep : b ∈ (addStep other addOk s b).failed ∨ b ∈ (addStep other addOk s b).own := by
    rw [addStep]
    split
    case isTrue hown => exact .inr hown
    split
    · exact .inr List.mem_cons_self
    split
    · exact .inr List.mem_cons_self
    · exact .inl List.mem_cons_self
  rcases hstep with hfailed | hown
  · exact .inl (mem_adds_failed post hfailed)
  · exact .inr ((mem_adds_own post).mpr (.inl hown))

/-- What is desired is in the set or failed. -/
theorem mem_sync_failed_or_own {own registered : List α} (hb : b ∈ desired) :
    b ∈ (sync desired other addOk own registered).failed ∨
      b ∈ (sync desired other addOk own registered).own :=
  mem_adds_failed_or_own hb

end Builderbot.SharedSets
