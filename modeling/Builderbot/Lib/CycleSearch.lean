import Mathlib.Dynamics.PeriodicPts.Defs

/-!
# Search for a cycle

A function is iterated from a value until the value is a fixed point or was seen before. In a finite set that the function
maps into itself, one step more than the set has members is enough, and the search ends on a cycle.
-/

namespace Builderbot.Lib.CycleSearch

open Function

variable {α : Type*} {f : α → α}

/-- Iterate until the value is a fixed point or among those seen. -/
def search [DecidableEq α] (f : α → α) : (fuel : ℕ) → (seen : List α) → α → Option α
  | 0, _, _ => none
  | fuel + 1, seen, a => if a ∈ seen ∨ f a = a then some a else search f fuel (a :: seen) (f a)

/-- The values seen lead to the present one. -/
def LeadTo (f : α → α) (seen : List α) (a : α) : Prop := ∀ b ∈ seen, ∃ n, f^[n + 1] b = a

variable {fuel : ℕ} {seen : List α} {a x : α}

theorem LeadTo.cons (h : LeadTo f seen a) : LeadTo f (a :: seen) (f a) := by
  refine List.forall_mem_cons.mpr ⟨⟨0, rfl⟩, fun b hb => ?_⟩
  obtain ⟨n, hn⟩ := h b hb
  exact ⟨n + 1, by rw [iterate_succ_apply', hn]⟩

theorem exists_search_eq_some [DecidableEq α] {s : Finset α} (hs : Set.MapsTo f s s) (hseen : seen.Nodup) (hsub : ∀ b ∈ seen, b ∈ s)
    (ha : a ∈ s) (hfuel : s.card < fuel + seen.length) : ∃ x, search f fuel seen a = some x := by
  induction fuel generalizing seen a with
  | zero =>
    have hcard : seen.toFinset.card ≤ s.card := Finset.card_le_card fun b hb => hsub b (List.mem_toFinset.mp hb)
    rw [List.toFinset_card_of_nodup hseen] at hcard
    omega
  | succ fuel ih =>
    rw [search]
    split
    · exact ⟨a, rfl⟩
    · rename_i hnext
      refine ih (List.nodup_cons.mpr ⟨fun h => hnext (.inl h), hseen⟩) (List.forall_mem_cons.mpr ⟨ha, hsub⟩) (hs ha) ?_
      rw [List.length_cons]
      omega

/-- The search ends on a cycle, at an iterate of the value it starts from. -/
theorem mem_periodicPts_of_search [DecidableEq α] (hlead : LeadTo f seen a) (h : search f fuel seen a = some x) :
    x ∈ periodicPts f ∧ ∃ n, f^[n] a = x := by
  induction fuel generalizing seen a with
  | zero => exact absurd h (Option.some_ne_none x).symm
  | succ fuel ih =>
    rw [search] at h
    split at h
    · rename_i hstop
      obtain rfl := Option.some.inj h
      refine ⟨?_, 0, rfl⟩
      rcases hstop with hmem | hfixed
      · obtain ⟨n, hn⟩ := hlead a hmem
        exact mk_mem_periodicPts n.succ_pos hn
      · exact mk_mem_periodicPts one_pos hfixed
    · obtain ⟨hx, n, hn⟩ := ih hlead.cons h
      exact ⟨hx, n + 1, hn⟩

/-- A cycle that an iterate leaves for a fixed point is that fixed point. -/
theorem isFixedPt_of_iterate {n m : ℕ} (hx : x ∈ periodicPts f) (hn : f^[n] a = x) (hm : IsFixedPt f (f^[m] a)) :
    IsFixedPt f x := by
  have hfixed : IsPeriodicPt f 1 (f^[m] x) := by
    rw [← hn, ← iterate_add_apply, Nat.add_comm, iterate_add_apply]
    exact (hm.isPeriodicPt 1).apply_iterate n
  exact isPeriodicPt_of_mem_periodicPts_of_isPeriodicPt_iterate hx hfixed

end Builderbot.Lib.CycleSearch
