import Mathlib.Data.List.Dedup
import Mathlib.Logic.Relation

/-!
# Commit histories

A history is a graph of commits in which every commit is deeper than its parents. `Reaches` follows the
parents, `ancestors` lists what a commit reaches, and `missing` counts what it reaches and another commit
does not.
-/

namespace Builderbot

/-- Commits with their parents. -/
structure History (κ : Type*) where
  parents : κ → List κ
  depth : κ → ℕ
  depth_lt : ∀ c, ∀ p ∈ parents c, depth p < depth c

namespace History

variable {κ : Type*} (history : History κ)

/-- The commit `a` is `c` or can be reached from it through parents. -/
def Reaches (c a : κ) : Prop := Relation.ReflTransGen (fun c p => p ∈ history.parents c) c a

/-- What a commit reaches in at most `n` steps. -/
def ancestorsWithin : ℕ → κ → List κ
  | 0, c => [c]
  | n + 1, c => c :: (history.parents c).flatMap (ancestorsWithin n)

/-- What a commit reaches. -/
def ancestors (c : κ) : List κ := history.ancestorsWithin (history.depth c) c

variable {history}

theorem Reaches.refl (c : κ) : history.Reaches c c := Relation.ReflTransGen.refl

theorem Reaches.trans {a b c : κ} (hab : history.Reaches a b) (hbc : history.Reaches b c) :
    history.Reaches a c := Relation.ReflTransGen.trans hab hbc

theorem Reaches.of_mem_parents {c p : κ} (h : p ∈ history.parents c) : history.Reaches c p :=
  Relation.ReflTransGen.single h

theorem reaches_of_mem_ancestorsWithin {n : ℕ} {c a : κ} (h : a ∈ history.ancestorsWithin n c) :
    history.Reaches c a := by
  induction n generalizing c with
  | zero =>
    rw [ancestorsWithin, List.mem_singleton] at h
    subst h
    exact Reaches.refl a
  | succ n ih =>
    rw [ancestorsWithin, List.mem_cons, List.mem_flatMap] at h
    rcases h with rfl | ⟨p, hp, ha⟩
    · exact Reaches.refl a
    · exact (Reaches.of_mem_parents hp).trans (ih ha)

theorem self_mem_ancestorsWithin (n : ℕ) (c : κ) : c ∈ history.ancestorsWithin n c := by
  cases n <;> exact List.mem_cons_self

/-- The depth is enough to find everything. -/
theorem mem_ancestorsWithin {n : ℕ} {c a : κ} (hdepth : history.depth c ≤ n) (h : history.Reaches c a) :
    a ∈ history.ancestorsWithin n c := by
  induction n generalizing c with
  | zero =>
    rcases h.cases_head with rfl | ⟨p, hp, -⟩
    · exact self_mem_ancestorsWithin 0 c
    · have := history.depth_lt c p hp
      omega
  | succ n ih =>
    rcases h.cases_head with rfl | ⟨p, hp, hpa⟩
    · exact self_mem_ancestorsWithin _ c
    · have hlt := history.depth_lt c p hp
      rw [ancestorsWithin, List.mem_cons, List.mem_flatMap]
      exact .inr ⟨p, hp, ih (by omega) hpa⟩

theorem mem_ancestors {c a : κ} : a ∈ history.ancestors c ↔ history.Reaches c a :=
  ⟨reaches_of_mem_ancestorsWithin, mem_ancestorsWithin (Nat.le_refl _)⟩

variable [DecidableEq κ]

instance (c a : κ) : Decidable (history.Reaches c a) := decidable_of_iff _ mem_ancestors

variable (history)

/-- The number of commits that `c` reaches and `d` does not. -/
def missing (c d : κ) : ℕ := ((history.ancestors c).dedup.filter (· ∉ history.ancestors d)).length

variable {history}

theorem missing_eq_zero {c d : κ} : history.missing c d = 0 ↔ history.Reaches d c := by
  rw [missing, List.length_eq_zero_iff, List.filter_eq_nil_iff]
  constructor
  · intro h
    have hself : c ∈ (history.ancestors c).dedup := List.mem_dedup.mpr (mem_ancestors.mpr (.refl c))
    have hmem := h c hself
    rw [decide_eq_true_eq, not_not] at hmem
    exact mem_ancestors.mp hmem
  · intro h a ha
    have hreach : history.Reaches c a := mem_ancestors.mp (List.mem_dedup.mp ha)
    rw [decide_eq_true_eq, not_not]
    exact mem_ancestors.mpr (h.trans hreach)

end History

end Builderbot
