import Mathlib.Data.List.Basic

/-!
# Subsequences by position

`keepAt p xs` are the items of `xs` at the positions that pass a test, and `CommonLe xs ys k` bounds the length of the
common subsequences of two lists. Both are followed along a list that grows at its end, as the tables of dynamic
programs do.
-/

namespace Builderbot.Lib

open scoped List

variable {α : Type*}

/-- The items at the positions that pass the test. -/
def keepAt (p : ℕ → Bool) (xs : List α) : List α := (xs.zipIdx.filter fun item => p item.2).map Prod.fst

section KeepAt

variable {p q : ℕ → Bool} {xs : List α}

@[simp]
theorem keepAt_nil (p : ℕ → Bool) : keepAt p ([] : List α) = [] := rfl

theorem keepAt_append (p : ℕ → Bool) (xs ys : List α) :
    keepAt p (xs ++ ys) = keepAt p xs ++ keepAt (fun i => p (xs.length + i)) ys := by
  have hshift : ys.zipIdx (0 + xs.length) = ys.zipIdx.map fun item => (item.1, xs.length + item.2) := by
    rw [Nat.zero_add, List.zipIdx_eq_map_add]
  rw [keepAt, List.zipIdx_append, List.filter_append, List.map_append, hshift, List.filter_map, List.map_map]
  rfl

theorem keepAt_cons (p : ℕ → Bool) (x : α) (xs : List α) :
    keepAt p (x :: xs) = (if p 0 then [x] else []) ++ keepAt (fun i => p (1 + i)) xs := by
  have hx : keepAt p [x] = if p 0 then [x] else [] := by
    rw [keepAt]
    cases h : p 0 <;> simp [h]
  rw [← hx]
  exact keepAt_append p [x] xs

theorem keepAt_concat (p : ℕ → Bool) (xs : List α) (x : α) :
    keepAt p (xs ++ [x]) = keepAt p xs ++ if p xs.length then [x] else [] := by
  rw [keepAt_append, keepAt_cons, keepAt_nil, List.append_nil]
  rfl

theorem keepAt_sublist (p : ℕ → Bool) (xs : List α) : keepAt p xs <+ xs := by
  have hmap := (List.filter_sublist (l := xs.zipIdx) (p := fun item => p item.2)).map Prod.fst
  rwa [List.zipIdx_map_fst] at hmap

theorem keepAt_congr (h : ∀ i < xs.length, p i = q i) : keepAt p xs = keepAt q xs := by
  rw [keepAt, keepAt]
  refine congrArg _ (List.filter_congr fun item hitem => h item.2 ?_)
  exact List.snd_lt_of_mem_zipIdx hitem

theorem keepAt_eq_self (h : ∀ i < xs.length, p i = true) : keepAt p xs = xs := by
  rw [keepAt_congr (q := fun _ => true) h, keepAt, List.filter_true, List.zipIdx_map_fst]

theorem keepAt_eq_nil (h : ∀ i < xs.length, p i = false) : keepAt p xs = [] := by
  rw [keepAt_congr (q := fun _ => false) h, keepAt, List.filter_false]
  rfl

/-- Positions below `i` do not reach the item at `i`. -/
theorem keepAt_take_succ {indices : List ℕ} {i : ℕ} (hi : i < xs.length) (h : ∀ k ∈ indices, k < i) :
    keepAt (· ∈ indices) (xs.take (i + 1)) = keepAt (· ∈ indices) (xs.take i) := by
  have hlength : (xs.take i).length = i := List.length_take_of_le (Nat.le_of_lt hi)
  rw [List.take_succ_eq_append_getElem hi, keepAt_concat, hlength,
    if_neg fun hmem => Nat.lt_irrefl i (h i (of_decide_eq_true hmem)), List.append_nil]

/-- A last position picks the last item. -/
theorem keepAt_take_succ_cons {indices : List ℕ} {i : ℕ} (hi : i < xs.length) :
    keepAt (· ∈ i :: indices) (xs.take (i + 1)) = keepAt (· ∈ indices) (xs.take i) ++ [xs[i]] := by
  have hlength : (xs.take i).length = i := List.length_take_of_le (Nat.le_of_lt hi)
  rw [List.take_succ_eq_append_getElem hi, keepAt_concat, hlength, if_pos (decide_eq_true List.mem_cons_self)]
  congr 1
  refine keepAt_congr fun k hk => decide_eq_decide.mpr ?_
  rw [hlength] at hk
  rw [List.mem_cons, or_iff_right (Nat.ne_of_lt hk)]

end KeepAt

/-- No common subsequence is longer. -/
def CommonLe (xs ys : List α) (k : ℕ) : Prop := ∀ s, s <+ xs → s <+ ys → s.length ≤ k

section CommonLe

variable {xs ys : List α} {x y : α} {k l : ℕ}

theorem commonLe_nil_left : CommonLe [] ys 0 := by
  intro s hs _
  rw [List.sublist_nil.mp hs]
  exact Nat.le_refl 0

theorem commonLe_nil_right : CommonLe xs [] 0 := by
  intro s _ hs
  rw [List.sublist_nil.mp hs]
  exact Nat.le_refl 0

/-- A subsequence of a longer list either leaves its last item out or ends with it. -/
theorem sublist_concat_iff {s : List α} :
    s <+ xs ++ [x] ↔ s <+ xs ∨ ∃ t, s = t ++ [x] ∧ t <+ xs := by
  constructor
  · intro h
    obtain ⟨t, u, rfl, ht, hu⟩ := List.sublist_append_iff.mp h
    rcases List.sublist_singleton.mp hu with rfl | rfl
    · left
      rwa [List.append_nil]
    · exact Or.inr ⟨t, rfl, ht⟩
  · rintro (h | ⟨t, rfl, ht⟩)
    · exact h.trans (List.sublist_append_left xs [x])
    · exact ht.append (List.Sublist.refl [x])

theorem dropLast_sublist_of_concat {s : List α} (h : s <+ xs ++ [x]) : s.dropLast <+ xs := by
  rcases sublist_concat_iff.mp h with h | ⟨t, rfl, ht⟩
  · exact (List.dropLast_sublist s).trans h
  · rwa [List.dropLast_concat]

/-- One more item makes the bound larger by one at most. -/
theorem CommonLe.concat (h : CommonLe xs ys k) : CommonLe (xs ++ [x]) (ys ++ [y]) (k + 1) := by
  intro s hxs hys
  have hle := h s.dropLast (dropLast_sublist_of_concat hxs) (dropLast_sublist_of_concat hys)
  rw [List.length_dropLast] at hle
  omega

/-- With different items at the ends, one of them is left out. -/
theorem CommonLe.concat_of_ne (hne : x ≠ y) (hxs : CommonLe xs (ys ++ [y]) k) (hys : CommonLe (xs ++ [x]) ys l) :
    CommonLe (xs ++ [x]) (ys ++ [y]) (max k l) := by
  intro s hsx hsy
  rcases sublist_concat_iff.mp hsx with h | ⟨t, rfl, ht⟩
  · exact Nat.le_trans (hxs s h hsy) (Nat.le_max_left k l)
  · rcases sublist_concat_iff.mp hsy with h | ⟨u, heq, -⟩
    · exact Nat.le_trans (hys _ hsx h) (Nat.le_max_right k l)
    · exact absurd (List.singleton_injective (List.append_inj_right' heq rfl)) hne

end CommonLe

end Builderbot.Lib
