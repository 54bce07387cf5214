import Builderbot.DiffViewer.InlineDiff
import Builderbot.Lib.Subsequence

/-!
# The matched indices are a longest common subsequence

The table of `lcsIndices` in `packages/diff-viewer/src/lib/utils/inlineDiff.ts` bounds the common subsequences of the
prefixes of the two lists, and the way back through it picks one of that length: the same items on both sides
(`keepAt_lcsIndices`), and no common subsequence is longer (`lcsIndices_longest`).
-/

namespace Builderbot.DiffViewer

open Lib

/-- Induction over the cells of a table that is filled from the three neighbours of a cell. -/
theorem grid_induction {P : ℕ → ℕ → Prop} (left : ∀ j, P 0 j) (bottom : ∀ i, P i 0)
    (step : ∀ i j, P i j → P i (j + 1) → P (i + 1) j → P (i + 1) (j + 1)) : ∀ i j, P i j := by
  intro i
  induction i with
  | zero => exact left
  | succ i ihi =>
    intro j
    induction j with
    | zero => exact bottom (i + 1)
    | succ j ihj => exact step i j (ihi j) (ihi (j + 1)) ihj

section Lcs

variable {α : Type*} [DecidableEq α] (a b : List α)

theorem lcsTable_zero_right (i : ℕ) : lcsTable a b i 0 = 0 := by
  cases i <;> rfl

theorem lcsTable_succ_succ (i j : ℕ) :
    lcsTable a b (i + 1) (j + 1) =
      if a[i]? = b[j]? then lcsTable a b i j + 1 else max (lcsTable a b i (j + 1)) (lcsTable a b (i + 1) j) := rfl

theorem lcsWalk_zero_right (i : ℕ) : lcsWalk a b i 0 = [] := by
  cases i <;> rfl

theorem lcsWalk_succ_succ (i j : ℕ) :
    lcsWalk a b (i + 1) (j + 1) =
      if a[i]? = b[j]? then (i, j) :: lcsWalk a b i j
      else if lcsTable a b (i + 1) j ≤ lcsTable a b i (j + 1) then lcsWalk a b i (j + 1)
      else lcsWalk a b (i + 1) j := rfl

/-- The walk stays inside. -/
theorem lcsWalk_lt (i j : ℕ) : ∀ p ∈ lcsWalk a b i j, p.1 < i ∧ p.2 < j := by
  induction i, j using grid_induction with
  | left j => exact List.forall_mem_nil _
  | bottom i =>
    rw [lcsWalk_zero_right]
    exact List.forall_mem_nil _
  | step i j diag up back =>
    rw [lcsWalk_succ_succ]
    split_ifs
    · intro p hp
      rcases List.mem_cons.mp hp with rfl | hp
      · exact ⟨Nat.lt_succ_self _, Nat.lt_succ_self _⟩
      · obtain ⟨h₁, h₂⟩ := diag p hp
        omega
    · intro p hp
      obtain ⟨h₁, h₂⟩ := up p hp
      omega
    · intro p hp
      obtain ⟨h₁, h₂⟩ := back p hp
      omega

/-- The entries of the table bound the common subsequences of two prefixes. -/
theorem commonLe_lcsTable {i j : ℕ} (hi : i ≤ a.length) (hj : j ≤ b.length) :
    CommonLe (a.take i) (b.take j) (lcsTable a b i j) := by
  induction i, j using grid_induction with
  | left j => exact commonLe_nil_left
  | bottom i =>
    rw [lcsTable_zero_right]
    exact commonLe_nil_right
  | step i j diag up back =>
    have hia : i < a.length := hi
    have hjb : j < b.length := hj
    have htakeA := List.take_append_getElem hia
    have htakeB := List.take_append_getElem hjb
    rw [lcsTable_succ_succ, List.getElem?_eq_getElem hia, List.getElem?_eq_getElem hjb, ← htakeA, ← htakeB]
    split_ifs with heq
    · exact (diag hia.le hjb.le).concat
    · refine CommonLe.concat_of_ne (fun h => heq (congrArg some h)) ?_ ?_
      · rw [htakeB]
        exact up hia.le hj
      · rw [htakeA]
        exact back hi hjb.le

/-- The items that the walk picks are the same on both sides, as many as the table says. -/
theorem keepAt_lcsWalk {i j : ℕ} (hi : i ≤ a.length) (hj : j ≤ b.length) :
    keepAt (· ∈ (lcsWalk a b i j).map Prod.fst) (a.take i) = keepAt (· ∈ (lcsWalk a b i j).map Prod.snd) (b.take j) ∧
      (keepAt (· ∈ (lcsWalk a b i j).map Prod.fst) (a.take i)).length = lcsTable a b i j := by
  -- the walk goes by the cells of the table
  induction i, j using grid_induction with
  | left j => exact ⟨(keepAt_eq_nil fun k _ => rfl).symm, rfl⟩
  | bottom i =>
    have hnone : keepAt (· ∈ (lcsWalk a b i 0).map Prod.fst) (a.take i) = [] := by
      rw [lcsWalk_zero_right]
      exact keepAt_eq_nil fun k _ => rfl
    rw [hnone, lcsTable_zero_right]
    exact ⟨rfl, rfl⟩
  | step i j diag up back =>
    have hia : i < a.length := hi
    have hjb : j < b.length := hj
    rw [lcsWalk_succ_succ, lcsTable_succ_succ]
    split_ifs with heq hle
    · -- the two items are equal and both picked
      obtain ⟨hkeep, hlength⟩ := diag hia.le hjb.le
      have hitem : a[i] = b[j] := by
        rw [List.getElem?_eq_getElem hia, List.getElem?_eq_getElem hjb] at heq
        exact Option.some.inj heq
      rw [List.map_cons, List.map_cons, keepAt_take_succ_cons hia, keepAt_take_succ_cons hjb, hkeep, hitem]
      refine ⟨rfl, ?_⟩
      rw [← hkeep, List.length_append, hlength]
      rfl
    · obtain ⟨hkeep, hlength⟩ := up hia.le hj
      have hfst : ∀ k ∈ (lcsWalk a b i (j + 1)).map Prod.fst, k < i := by
        intro k hk
        obtain ⟨p, hp, rfl⟩ := List.mem_map.mp hk
        exact (lcsWalk_lt a b i (j + 1) p hp).1
      rw [keepAt_take_succ hia hfst, hlength, Nat.max_eq_left hle]
      exact ⟨hkeep, rfl⟩
    · obtain ⟨hkeep, hlength⟩ := back hi hjb.le
      have hsnd : ∀ k ∈ (lcsWalk a b (i + 1) j).map Prod.snd, k < j := by
        intro k hk
        obtain ⟨p, hp, rfl⟩ := List.mem_map.mp hk
        exact (lcsWalk_lt a b (i + 1) j p hp).2
      rw [keepAt_take_succ hjb hsnd, hlength, Nat.max_eq_right (Nat.le_of_not_le hle)]
      exact ⟨hkeep, rfl⟩

/-- The matched items are the same on both sides. -/
theorem keepAt_lcsIndices : keepAt (· ∈ (lcsIndices a b).1) a = keepAt (· ∈ (lcsIndices a b).2) b := by
  have hkeep := (keepAt_lcsWalk a b le_rfl le_rfl).1
  rwa [List.take_length, List.take_length] at hkeep

/-- No common subsequence is longer than the matched items. -/
theorem lcsIndices_longest : CommonLe a b (keepAt (· ∈ (lcsIndices a b).1) a).length := by
  have hlength := (keepAt_lcsWalk a b le_rfl le_rfl).2
  have hbound := commonLe_lcsTable a b le_rfl le_rfl
  rw [← hlength, List.take_length, List.take_length] at hbound
  exact hbound

end Lcs

end Builderbot.DiffViewer
