import Mathlib.Data.List.Basic

/-!
# Memo caches

A cache in front of a function `f`. Its entries are kept in the order of insertion, under a key that
is computed from the argument. A hit returns the stored value; a miss computes the value, drops the
oldest entry when the cache is full, and appends the new one.

The cache answers like `f` itself exactly as long as arguments with one key have one value.
-/

namespace Builderbot.MemoCache

variable {α β κ : Type*}

/-- Every entry was computed for a call that has been made. -/
def Computed (key : α → κ) (f : α → β) (seen : List α) (cache : List (κ × β)) : Prop :=
  ∀ e ∈ cache, ∃ x ∈ seen, key x = e.1 ∧ f x = e.2

theorem computed_nil {key : α → κ} {f : α → β} (seen : List α) :
    Computed key f seen [] := fun _ he => absurd he List.not_mem_nil

variable [DecidableEq κ]

section Get

variable (key : α → κ) (f : α → β) (capacity : ℕ)

/-- Answer one call. -/
def get (cache : List (κ × β)) (x : α) : β × List (κ × β) :=
  match cache.lookup (key x) with
  | some y => (y, cache)
  | none =>
    let kept := if capacity ≤ cache.length then cache.tail else cache
    (f x, kept ++ [(key x, f x)])

/-- The answers to a sequence of calls. -/
def gets (cache : List (κ × β)) : List α → List β
  | [] => []
  | x :: xs => (get key f capacity cache x).1 :: gets (get key f capacity cache x).2 xs

end Get

variable {key : α → κ} {f : α → β} {capacity : ℕ} {cache : List (κ × β)} {seen xs : List α} {x y : α}

/-- A call leaves only entries of calls that have been made. -/
theorem Computed.get (h : Computed key f seen cache) (x : α) :
    Computed key f (x :: seen) (get key f capacity cache x).2 := by
  have hseen : Computed key f (x :: seen) cache := by
    intro e he
    obtain ⟨y, hy, hentry⟩ := h e he
    exact ⟨y, List.mem_cons_of_mem x hy, hentry⟩
  unfold MemoCache.get
  split
  · exact hseen
  · intro e he
    rcases List.mem_append.mp he with hkept | hnew
    · refine hseen e ?_
      split at hkept
      · exact List.mem_of_mem_tail hkept
      · exact hkept
    · rw [List.mem_singleton] at hnew
      exact ⟨x, List.mem_cons_self, by rw [hnew], by rw [hnew]⟩

/-- An answer is the value of a call with the same key. -/
theorem Computed.fst_get (h : Computed key f seen cache) (capacity : ℕ) (x : α) :
    ∃ y ∈ x :: seen, key y = key x ∧ (MemoCache.get key f capacity cache x).1 = f y := by
  unfold MemoCache.get
  split
  · rename_i value hlookup
    obtain ⟨pre, post, rfl, -⟩ := List.lookup_eq_some_iff.mp hlookup
    obtain ⟨y, hy, hkey, hvalue⟩ := h (key x, value) (by simp)
    exact ⟨y, List.mem_cons_of_mem x hy, hkey, hvalue.symm⟩
  · exact ⟨x, List.mem_cons_self, rfl, rfl⟩

/-- If calls with one key have one value, every answer is the value of its call. -/
theorem gets_eq_map (h : Computed key f seen cache)
    (hvalue : ∀ x ∈ seen ++ xs, ∀ y ∈ seen ++ xs, key x = key y → f x = f y) :
    gets key f capacity cache xs = xs.map f := by
  induction xs generalizing seen cache with
  | nil => rfl
  | cons x xs ih =>
    have hmem : ∀ y ∈ x :: seen, y ∈ seen ++ x :: xs := by
      intro y hy
      rcases List.mem_cons.mp hy with rfl | hy
      · simp
      · exact List.mem_append_left _ hy
    obtain ⟨y, hy, hkey, hget⟩ := h.fst_get capacity x
    rw [gets, List.map_cons, hget, hvalue y (hmem y hy) x (by simp) hkey]
    congr 1
    refine ih (h.get x) ?_
    intro a ha b hb
    refine hvalue a ?_ b ?_
    · simpa [or_left_comm, or_assoc, or_comm] using ha
    · simpa [or_left_comm, or_assoc, or_comm] using hb

/-- Two calls with one key on a fresh cache get one answer. -/
theorem gets_pair (hkey : key x = key y) : gets key f capacity [] [x, y] = [f x, f x] := by
  have hfirst : get key f capacity [] x = (f x, [(key x, f x)]) := by
    simp [get]
  have hsecond : get key f capacity [(key x, f x)] y = (f x, [(key x, f x)]) := by
    simp [get, hkey]
  rw [gets, hfirst, gets, hsecond, gets]

end Builderbot.MemoCache
