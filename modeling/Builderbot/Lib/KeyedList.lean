import Mathlib.Algebra.BigOperators.Group.List.Basic
import Mathlib.Algebra.Ring.Nat
import Mathlib.Data.List.Nodup

/-!
# Lists in order of insertion

`upsert` changes the first entry that passes a test, and puts a new one at the end where there is none. `upsert_cases`
says what it does, and the other lemmas are its consequences.
-/

namespace Builderbot.KeyedList

variable {α : Type*} {p : α → Bool} {d : α} {f : α → α} {xs : List α}

/-- Change the first entry that passes the test. Where there is none, `d` is changed and put at the end. -/
def upsert (p : α → Bool) (d : α) (f : α → α) : List α → List α
  | [] => [f d]
  | x :: xs => if p x then f x :: xs else x :: upsert p d f xs

theorem upsert_cases (p : α → Bool) (d : α) (f : α → α) (xs : List α) :
    (∃ l x r, xs = l ++ x :: r ∧ (∀ y ∈ l, p y = false) ∧ p x = true ∧ upsert p d f xs = l ++ f x :: r) ∨
      ((∀ y ∈ xs, p y = false) ∧ upsert p d f xs = xs ++ [f d]) := by
  induction xs with
  | nil => exact .inr ⟨List.forall_mem_nil _, rfl⟩
  | cons x xs ih =>
    by_cases hx : p x = true
    · exact .inl ⟨[], x, xs, rfl, List.forall_mem_nil _, hx, by rw [upsert, if_pos hx, List.nil_append]⟩
    · have hfalse : p x = false := Bool.eq_false_iff.mpr hx
      rw [upsert, if_neg hx]
      rcases ih with ⟨l, y, r, rfl, hl, hy, heq⟩ | ⟨hnone, heq⟩
      · refine .inl ⟨x :: l, y, r, rfl, List.forall_mem_cons.mpr ⟨hfalse, hl⟩, hy, ?_⟩
        rw [heq, List.cons_append]
      · refine .inr ⟨List.forall_mem_cons.mpr ⟨hfalse, hnone⟩, ?_⟩
        rw [heq, List.cons_append]

/-- What holds of every entry still does if it holds of the changed one. -/
theorem forall_mem_upsert {P : α → Prop} (hxs : ∀ x ∈ xs, P x) (hold : ∀ x ∈ xs, p x = true → P (f x))
    (hnew : P (f d)) : ∀ x ∈ upsert p d f xs, P x := by
  rcases upsert_cases p d f xs with ⟨l, x, r, rfl, -, hx, heq⟩ | ⟨-, heq⟩
  · rw [List.forall_mem_append, List.forall_mem_cons] at hxs
    rw [heq, List.forall_mem_append, List.forall_mem_cons]
    exact ⟨hxs.1, hold x (List.mem_append_right l List.mem_cons_self) hx, hxs.2.2⟩
  · rw [heq, List.forall_mem_append]
    exact ⟨hxs, List.forall_mem_singleton.mpr hnew⟩

/-- Some entry has a property that the change adds under the condition `E`. -/
theorem exists_mem_upsert {P : α → Prop} {E : Prop} (hold : ∀ x ∈ xs, p x = true → (P (f x) ↔ P x ∨ E))
    (hnew : P (f d) ↔ E) : (∃ x ∈ upsert p d f xs, P x) ↔ (∃ x ∈ xs, P x) ∨ E := by
  rcases upsert_cases p d f xs with ⟨l, x, r, rfl, -, hx, heq⟩ | ⟨-, heq⟩
  · have hiff := hold x (List.mem_append_right l List.mem_cons_self) hx
    simp only [heq, List.mem_append, List.mem_cons, or_and_right, exists_or, exists_eq_left, hiff, or_assoc]
    rw [or_comm (a := E)]
  · simp only [heq, List.mem_append, List.mem_singleton, or_and_right, exists_or, exists_eq_left, hnew]

/-- A sum over the entries grows by what the change adds to one of them. -/
theorem sum_map_upsert {w : α → ℕ} {e : ℕ} (hold : ∀ x ∈ xs, p x = true → w (f x) = w x + e) (hnew : w (f d) = e) :
    ((upsert p d f xs).map w).sum = (xs.map w).sum + e := by
  rcases upsert_cases p d f xs with ⟨l, x, r, rfl, -, hx, heq⟩ | ⟨-, heq⟩
  · have hadd := hold x (List.mem_append_right l List.mem_cons_self) hx
    simp only [heq, List.map_append, List.map_cons, List.sum_append, List.sum_cons, hadd]
    omega
  · simp only [heq, List.map_append, List.map_cons, List.map_nil, List.sum_append, List.sum_singleton, hnew]

theorem find?_append_cons {l r : List α} {x : α} (hl : ∀ y ∈ l, p y = false) (hx : p x = true) :
    (l ++ x :: r).find? p = some x := by
  have hleft : l.find? p = none := by
    rw [List.find?_eq_none]
    exact fun y hy => Bool.eq_false_iff.mp (hl y hy)
  rw [List.find?_append, hleft, Option.none_or, List.find?_cons_of_pos hx]

section Key

variable {κ : Type*} [DecidableEq κ] (key : α → κ) {k : κ}

/-- The keys in order: a missing one is put at the end. -/
theorem map_key_upsert (hold : ∀ x ∈ xs, key x = k → key (f x) = k) (hnew : key (f d) = k) :
    (upsert (fun x => key x = k) d f xs).map key = if k ∈ xs.map key then xs.map key else xs.map key ++ [k] := by
  rcases upsert_cases (fun x => decide (key x = k)) d f xs with ⟨l, x, r, rfl, -, hx, heq⟩ | ⟨hnone, heq⟩
  · have hkey : key x = k := of_decide_eq_true hx
    have hmem : k ∈ (l ++ x :: r).map key := by
      rw [← hkey]
      exact List.mem_map_of_mem (List.mem_append_right l List.mem_cons_self)
    rw [if_pos hmem, heq, List.map_append, List.map_append, List.map_cons, List.map_cons, hkey,
      hold x (List.mem_append_right l List.mem_cons_self) hkey]
  · have hmem : k ∉ xs.map key := by
      intro hmem
      obtain ⟨x, hx, hkey⟩ := List.mem_map.mp hmem
      exact of_decide_eq_false (hnone x hx) hkey
    rw [if_neg hmem, heq, List.map_append, List.map_singleton, hnew]

theorem nodup_map_key_upsert (hold : ∀ x ∈ xs, key x = k → key (f x) = k) (hnew : key (f d) = k)
    (h : (xs.map key).Nodup) : ((upsert (fun x => key x = k) d f xs).map key).Nodup := by
  rw [map_key_upsert key hold hnew]
  by_cases hmem : k ∈ xs.map key
  · rwa [if_pos hmem]
  · rw [if_neg hmem]
    exact List.nodup_append.mpr ⟨h, List.nodup_singleton k,
      fun a ha b hb heq => hmem (List.mem_singleton.mp hb ▸ heq ▸ ha)⟩

/-- The entry under the key, and the entries under the other keys. -/
theorem find?_upsert (hold : ∀ x ∈ xs, key x = k → key (f x) = k) (hnew : key (f d) = k) (k' : κ) :
    (upsert (fun x => key x = k) d f xs).find? (fun x => key x = k') =
      if k' = k then some (f ((xs.find? fun x => key x = k).getD d)) else xs.find? fun x => key x = k' := by
  rcases upsert_cases (fun x => decide (key x = k)) d f xs with ⟨l, x, r, rfl, hl, hx, heq⟩ | ⟨hnone, heq⟩
  · have hkey : key x = k := of_decide_eq_true hx
    have hchanged : key (f x) = k := hold x (List.mem_append_right l List.mem_cons_self) hkey
    rw [heq]
    by_cases hk : k' = k
    · subst hk
      rw [if_pos rfl, find?_append_cons hl hx, find?_append_cons hl (decide_eq_true hchanged), Option.getD_some]
    · have hother (y : α) (hy : key y = k) : (y :: r).find? (fun x => key x = k') = r.find? fun x => key x = k' := by
        refine List.find?_cons_of_neg fun h => hk ?_
        rw [← hy, of_decide_eq_true h]
      rw [if_neg hk, List.find?_append, List.find?_append, hother _ hchanged, hother _ hkey]
  · rw [heq]
    by_cases hk : k' = k
    · subst hk
      have hmissing : xs.find? (fun x => decide (key x = k')) = none := by
        rw [List.find?_eq_none]
        exact fun y hy => Bool.eq_false_iff.mp (hnone y hy)
      rw [if_pos rfl, hmissing, Option.getD_none, find?_append_cons hnone (decide_eq_true hnew)]
    · have hother : [f d].find? (fun x => key x = k') = none := by
        refine List.find?_cons_of_neg fun h => hk ?_
        rw [← hnew, of_decide_eq_true h]
      rw [if_neg hk, List.find?_append, hother, Option.or_none]

end Key

end Builderbot.KeyedList
