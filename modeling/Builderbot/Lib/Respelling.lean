import Mathlib.Data.Set.Finite.Lattice
import Mathlib.Order.Preorder.Finite

/-!
# Columns under a respelling

A text is a list of characters with two spellings, the text that is shown and one in which patterns are looked for.
A column of the one is in general no column of the other.

`columns_kept_iff` says when the places of a pattern in the second spelling are columns of the first one at which
the pattern stands: exactly when no place has moved. A place that has moved to another place would move that one in
turn, and there are finitely many.
-/

namespace Builderbot.Lib.Respelling

/-- A strictly monotone map of a finite set of numbers into itself moves none of them. -/
theorem eq_self_of_strictMonoOn {S : Set ℕ} (hS : S.Finite) {g : ℕ → ℕ} (hg : StrictMonoOn g S)
    (hmaps : Set.MapsTo g S S) {p : ℕ} (hp : p ∈ S) : g p = p := by
  by_contra hmoved
  rcases Nat.lt_or_gt_of_ne hmoved with hlow | hhigh
  · obtain ⟨q, ⟨hq, hlt⟩, hmin⟩ := (hS.subset fun q (hq : q ∈ {q ∈ S | g q < q}) => hq.1).exists_minimal ⟨p, hp, hlow⟩
    have hagain : g (g q) < g q := hg (hmaps hq) hq hlt
    exact absurd (hmin ⟨hmaps hq, hagain⟩ hlt.le) (Nat.not_le_of_lt hlt)
  · obtain ⟨q, ⟨hq, hlt⟩, hmax⟩ := (hS.subset fun q (hq : q ∈ {q ∈ S | q < g q}) => hq.1).exists_maximal ⟨p, hp, hhigh⟩
    have hagain : g q < g (g q) := hg hq (hmaps hq) hlt
    exact absurd (hmax ⟨hmaps hq, hagain⟩ hlt.le) (Nat.not_le_of_lt hlt)

variable {α β γ : Type*}

/-- The column at which the character with an index begins. -/
def offset (f : α → List β) (cs : List α) (k : ℕ) : ℕ := ((cs.take k).flatMap f).length

/-- The characters from one index to another one spell a pattern. -/
structure Spells (f : α → List β) (cs : List α) (pat : List β) (j k : ℕ) : Prop where
  le : j ≤ k
  le_length : k ≤ cs.length
  spelled : ((cs.take k).drop j).flatMap f = pat

variable {f : α → List β} {cs : List α} {pat : List β} {j k : ℕ}

theorem flatMap_take_succ (hk : k < cs.length) : (cs.take (k + 1)).flatMap f = (cs.take k).flatMap f ++ f cs[k] := by
  rw [List.take_succ_eq_append_getElem hk, List.flatMap_append, List.flatMap_singleton]

theorem offset_lt_succ (hf : ∀ a ∈ cs, f a ≠ []) (hk : k < cs.length) : offset f cs k < offset f cs (k + 1) := by
  rw [offset, offset, flatMap_take_succ hk, List.length_append]
  exact Nat.lt_add_of_pos_right (List.length_pos_iff.mpr (hf _ (List.getElem_mem hk)))

theorem offset_lt (hf : ∀ a ∈ cs, f a ≠ []) (hjk : j < k) (hk : k ≤ cs.length) : offset f cs j < offset f cs k := by
  induction k with
  | zero => exact absurd hjk (Nat.not_lt_zero j)
  | succ k ih =>
    have hstep := offset_lt_succ hf (Nat.lt_of_succ_le hk)
    rcases Nat.lt_succ_iff_lt_or_eq.mp hjk with hlt | rfl
    · exact (ih hlt (Nat.le_of_succ_le hk)).trans hstep
    · exact hstep

theorem offset_lt_iff (hf : ∀ a ∈ cs, f a ≠ []) (hj : j ≤ cs.length) (hk : k ≤ cs.length) :
    offset f cs j < offset f cs k ↔ j < k := by
  refine ⟨fun hlt => ?_, fun hlt => offset_lt hf hlt hk⟩
  by_contra hle
  rcases Nat.eq_or_lt_of_le (Nat.le_of_not_lt hle) with rfl | hgt
  · exact Nat.lt_irrefl _ hlt
  · exact Nat.lt_asymm hlt (offset_lt hf hgt hj)

theorem offset_inj (hf : ∀ a ∈ cs, f a ≠ []) (hj : j ≤ cs.length) (hk : k ≤ cs.length)
    (h : offset f cs j = offset f cs k) : j = k := by
  by_contra hne
  rcases Nat.lt_or_gt_of_ne hne with hlt | hgt
  · exact Nat.ne_of_lt (offset_lt hf hlt hk) h
  · exact Nat.ne_of_gt (offset_lt hf hgt hj) h

/-- A text from a column at which a character begins. -/
theorem drop_offset (f : α → List β) (cs : List α) (j : ℕ) :
    (cs.flatMap f).drop (offset f cs j) = (cs.drop j).flatMap f := by
  conv_lhs => rw [← List.take_append_drop j cs, List.flatMap_append]
  rw [offset, List.drop_left']
  rw [List.take_append_drop]

theorem drop_eq_append (hjk : j ≤ k) : cs.drop j = (cs.take k).drop j ++ cs.drop k := by
  obtain ⟨m, rfl⟩ := Nat.exists_eq_add_of_le hjk
  rw [List.drop_take, Nat.add_sub_cancel_left, ← List.drop_drop, List.take_append_drop]

theorem offset_eq_add (hjk : j ≤ k) : offset f cs k = offset f cs j + (((cs.take k).drop j).flatMap f).length := by
  rw [offset, offset, ← List.length_append, ← List.flatMap_append]
  congr 2
  conv_lhs => rw [← List.take_append_drop j (cs.take k), List.take_take, Nat.min_eq_left hjk]

/-- What characters spell stands at their column, and has their width. -/
theorem spells_iff (hjk : j ≤ k) (hk : k ≤ cs.length) :
    Spells f cs pat j k ↔
      pat <+: (cs.flatMap f).drop (offset f cs j) ∧ offset f cs k = offset f cs j + pat.length := by
  have hdrop : (cs.flatMap f).drop (offset f cs j) = ((cs.take k).drop j).flatMap f ++ (cs.drop k).flatMap f := by
    rw [drop_offset, drop_eq_append hjk, List.flatMap_append]
  rw [hdrop, offset_eq_add hjk, Nat.add_left_cancel_iff]
  constructor
  · rintro ⟨-, -, rfl⟩
    exact ⟨List.prefix_append _ _, rfl⟩
  · rintro ⟨hpre, hlen⟩
    refine ⟨hjk, hk, ?_⟩
    exact ((List.prefix_of_prefix_length_le hpre (List.prefix_append _ _) hlen.ge).eq_of_length hlen.symm).symm

/-! ## Two spellings -/

section TwoSpellings

variable {g : α → List γ} {n p : ℕ}

/-- A place of the second spelling has the columns of characters that spell the pattern, which is `n` wide in the
first one. -/
def StandsAt (g : α → List γ) (f : α → List β) (cs : List α) (pat : List β) (n p : ℕ) : Prop :=
  ∃ j k, Spells f cs pat j k ∧ offset g cs j = p ∧ offset g cs k = p + n

/-- A place begins and ends between two characters, and at the same columns of the first spelling if the pattern is
`n` wide there. -/
def Unmoved (g : α → List γ) (f : α → List β) (cs : List α) (pat : List β) (n p : ℕ) : Prop :=
  ∃ j k, j ≤ k ∧ k ≤ cs.length ∧ offset f cs j = p ∧ offset f cs k = p + pat.length ∧
    offset g cs j = p ∧ offset g cs k = p + n

/-- The place itself is at the columns. -/
theorem Unmoved.standsAt (h : Unmoved g f cs pat n p) (hp : pat <+: (cs.flatMap f).drop p) :
    StandsAt g f cs pat n p := by
  obtain ⟨j, k, hjk, hk, hj, hend, hcol, hcolEnd⟩ := h
  refine ⟨j, k, (spells_iff hjk hk).mpr ?_, hcol, hcolEnd⟩
  rw [hj]
  exact ⟨hp, hend⟩

variable (hf : ∀ a ∈ cs, f a ≠ []) (hg : ∀ a ∈ cs, g a ≠ [])
include hf

/-- What is spelled somewhere is at an unmoved place. -/
theorem Unmoved.eq_of_spells (h : ∀ p, pat <+: (cs.flatMap f).drop p → Unmoved g f cs pat n p)
    (hspells : Spells f cs pat j k) :
    offset g cs j = offset f cs j ∧ offset g cs k = offset f cs j + n := by
  obtain ⟨hat, hend⟩ := (spells_iff hspells.le hspells.le_length).mp hspells
  obtain ⟨j', k', hjk', hk', hj', hend', hcol, hcolEnd⟩ := h _ hat
  obtain rfl := offset_inj hf (hjk'.trans hk') (hspells.le.trans hspells.le_length) hj'
  obtain rfl := offset_inj hf hk' hspells.le_length (hend'.trans hend.symm)
  exact ⟨hcol, hcolEnd⟩

include hg

/-- The pattern stands at the columns of all its places exactly when no place has moved. -/
theorem columns_kept_iff (hpat : pat ≠ []) : (∀ p, pat <+: (cs.flatMap f).drop p → StandsAt g f cs pat n p) ↔
    ∀ p, pat <+: (cs.flatMap f).drop p → Unmoved g f cs pat n p := by
  refine ⟨fun h => ?_, fun h p hp => (h p hp).standsAt hp⟩
  let places : Set ℕ := {p | pat <+: (cs.flatMap f).drop p}
  choose! first last hspells hcol hcolEnd using h
  have hfinite : places.Finite := by
    refine (Set.finite_lt_nat (cs.flatMap f).length).subset fun p hp => ?_
    by_contra hle
    rw [Set.mem_ofPred_eq, List.drop_eq_nil_of_le (Nat.le_of_not_lt hle)] at hp
    exact hpat (List.prefix_nil.mp hp)
  have hle (p : ℕ) (hp : p ∈ places) : first p ≤ cs.length := (hspells p hp).le.trans (hspells p hp).le_length
  have hmono : StrictMonoOn (fun p => offset f cs (first p)) places := by
    intro p hp q hq hpq
    rw [← hcol p hp, ← hcol q hq, offset_lt_iff hg (hle p hp) (hle q hq)] at hpq
    exact (offset_lt_iff hf (hle p hp) (hle q hq)).mpr hpq
  have hat (p : ℕ) (hp : p ∈ places) := (spells_iff (hspells p hp).le (hspells p hp).le_length).mp (hspells p hp)
  intro p hp
  have hself : offset f cs (first p) = p := eq_self_of_strictMonoOn hfinite hmono (fun q hq => (hat q hq).1) hp
  refine ⟨first p, last p, (hspells p hp).le, (hspells p hp).le_length, hself, ?_, hcol p hp, hcolEnd p hp⟩
  rw [(hat p hp).2, hself]

end TwoSpellings

end Builderbot.Lib.Respelling
