import Mathlib.Data.List.Infix
import Mathlib.Data.Nat.Find

/-!
# Occurrences of a pattern

The positions at which a pattern occurs in a text, overlapping ones included, the search for the first one,
and the count of those that a scan from the left meets when it goes on behind each match.
-/

namespace Builderbot.Lib.Occurrences

variable {α : Type*} [DecidableEq α]

/-- The positions of a pattern in a text that begins at `pos`. -/
def occurrencesFrom (pat : List α) : ℕ → List α → List ℕ
  | _, [] => []
  | pos, a :: text =>
    if pat <+: a :: text then pos :: occurrencesFrom pat (pos + 1) text else occurrencesFrom pat (pos + 1) text

def occurrences (pat text : List α) : List ℕ := occurrencesFrom pat 0 text

/-- The first position of a pattern. -/
def indexOf? (pat : List α) : List α → Option ℕ
  | [] => if pat = [] then some 0 else none
  | a :: text => if pat <+: a :: text then some 0 else (indexOf? pat text).map (· + 1)

/-- The matches of a scan that passes over `skip` elements first. -/
def countFrom (pat : List α) : ℕ → List α → ℕ
  | _, [] => 0
  | skip + 1, _ :: text => countFrom pat skip text
  | 0, a :: text => if pat <+: a :: text then countFrom pat (pat.length - 1) text + 1 else countFrom pat 0 text

/-- The number of matches that do not overlap. -/
def count (pat text : List α) : ℕ := countFrom pat 0 text

variable {pat text : List α}

/-- A pattern with an element occurs where the rest of the text begins with it. -/
theorem mem_occurrencesFrom (hpat : pat ≠ []) {pos i : ℕ} :
    i ∈ occurrencesFrom pat pos text ↔ ∃ j, i = pos + j ∧ pat <+: text.drop j := by
  induction text generalizing pos with
  | nil =>
    rw [occurrencesFrom]
    simp [hpat]
  | cons a text ih =>
    have hrest : i ∈ occurrencesFrom pat (pos + 1) text ↔ ∃ j, i = pos + (j + 1) ∧ pat <+: (a :: text).drop (j + 1) := by
      rw [ih]
      exact exists_congr fun j => and_congr_left fun _ => by omega
    have hsplit : (∃ j, i = pos + j ∧ pat <+: (a :: text).drop j) ↔
        (i = pos ∧ pat <+: a :: text) ∨ ∃ j, i = pos + (j + 1) ∧ pat <+: (a :: text).drop (j + 1) := by
      constructor
      · rintro ⟨j, hj, hat⟩
        cases j with
        | zero => exact .inl ⟨hj, hat⟩
        | succ j => exact .inr ⟨j, hj, hat⟩
      · rintro (⟨hi, hat⟩ | ⟨j, hj, hat⟩)
        · exact ⟨0, hi, hat⟩
        · exact ⟨j + 1, hj, hat⟩
    rw [hsplit, ← hrest, occurrencesFrom]
    split
    case isTrue hat => simp [hat]
    case isFalse hat => simp [hat]

theorem mem_occurrences (hpat : pat ≠ []) {i : ℕ} : i ∈ occurrences pat text ↔ pat <+: text.drop i := by
  rw [occurrences, mem_occurrencesFrom hpat]
  simp

theorem lt_of_mem_occurrencesFrom {pos i : ℕ} (h : i ∈ occurrencesFrom pat pos text) : pos ≤ i := by
  induction text generalizing pos with
  | nil => cases h
  | cons a text ih =>
    rw [occurrencesFrom] at h
    split at h
    · rcases List.mem_cons.mp h with rfl | h
      · exact le_rfl
      · exact Nat.le_of_succ_le (ih h)
    · exact Nat.le_of_succ_le (ih h)

/-- The positions are listed in order. -/
theorem occurrencesFrom_sorted (pos : ℕ) : (occurrencesFrom pat pos text).Pairwise (· < ·) := by
  induction text generalizing pos with
  | nil => exact .nil
  | cons a text ih =>
    rw [occurrencesFrom]
    split
    · exact .cons (fun i hi => lt_of_mem_occurrencesFrom hi) (ih _)
    · exact ih _

theorem occurrences_sorted : (occurrences pat text).Pairwise (· < ·) := occurrencesFrom_sorted 0

/-- There is a first position when there is one. -/
theorem indexOf?_eq_none_iff (hpat : pat ≠ []) (pos : ℕ) :
    indexOf? pat text = none ↔ occurrencesFrom pat pos text = [] := by
  induction text generalizing pos with
  | nil => simp [indexOf?, occurrencesFrom, hpat]
  | cons a text ih =>
    rw [indexOf?, occurrencesFrom]
    split
    · simp
    · rw [Option.map_eq_none_iff]
      exact ih (pos + 1)

/-- What is found ends in the text. -/
theorem add_length_le_of_indexOf? {i : ℕ} (h : indexOf? pat text = some i) : i + pat.length ≤ text.length := by
  induction text generalizing i with
  | nil =>
    rw [indexOf?] at h
    split at h
    case isTrue hpat =>
      obtain rfl := Option.some.inj h
      simp [hpat]
    case isFalse => cases h
  | cons a text ih =>
    rw [indexOf?] at h
    split at h
    case isTrue hat =>
      obtain rfl := Option.some.inj h
      rw [Nat.zero_add]
      exact hat.length_le
    case isFalse =>
      obtain ⟨j, hj, rfl⟩ := Option.map_eq_some_iff.mp h
      have hle := ih hj
      rw [List.length_cons]
      omega

/-- The first position, and the ones behind it. -/
theorem occurrencesFrom_of_indexOf? (hpat : pat ≠ []) {i : ℕ} (h : indexOf? pat text = some i) (pos : ℕ) :
    occurrencesFrom pat pos text = (pos + i) :: occurrencesFrom pat (pos + i + 1) (text.drop (i + 1)) := by
  induction text generalizing pos i with
  | nil => simp [indexOf?, hpat] at h
  | cons a text ih =>
    rw [indexOf?] at h
    rw [occurrencesFrom]
    split at h
    case isTrue hat =>
      obtain rfl := Option.some.inj h
      rw [if_pos hat]
      rfl
    case isFalse hat =>
      obtain ⟨j, hj, rfl⟩ := Option.map_eq_some_iff.mp h
      rw [if_neg hat, ih hj, List.drop_succ_cons]
      have hpos : pos + 1 + j = pos + (j + 1) := by omega
      rw [hpos]

theorem indexOf?_eq_head? (hpat : pat ≠ []) : indexOf? pat text = (occurrences pat text).head? := by
  cases h : indexOf? pat text with
  | none => rw [occurrences, (indexOf?_eq_none_iff hpat 0).mp h, List.head?_nil]
  | some i => rw [occurrences, occurrencesFrom_of_indexOf? hpat h, List.head?_cons, Nat.zero_add]

/-- A pattern occurs when it is somewhere in the text. -/
theorem occurrences_eq_nil_iff (hpat : pat ≠ []) : occurrences pat text = [] ↔ ¬ pat <:+: text := by
  rw [List.eq_nil_iff_forall_not_mem]
  simp only [mem_occurrences hpat]
  constructor
  · rintro hno ⟨s, t, rfl⟩
    exact hno s.length (by simp)
  · intro hno i hat
    exact hno (hat.isInfix.trans (List.drop_suffix i text).isInfix)

theorem countFrom_eq_zero_iff (pos : ℕ) : countFrom pat 0 text = 0 ↔ occurrencesFrom pat pos text = [] := by
  induction text generalizing pos with
  | nil => simp [countFrom, occurrencesFrom]
  | cons a text ih =>
    rw [countFrom, occurrencesFrom]
    split
    · simp
    · exact ih (pos + 1)

theorem count_eq_zero_iff : count pat text = 0 ↔ occurrences pat text = [] := countFrom_eq_zero_iff 0

/-! ## The first position with a property -/

/-- The least number with a property. -/
def IsFirst (P : ℕ → Prop) (i : ℕ) : Prop := P i ∧ ∀ j < i, ¬ P j

theorem IsFirst.unique {P : ℕ → Prop} {i j : ℕ} (h : IsFirst P i) (h' : IsFirst P j) : i = j := by
  by_contra hne
  rcases Nat.lt_or_gt_of_ne hne with hlt | hlt
  · exact h'.2 i hlt h.1
  · exact h.2 j hlt h'.1

/-- Among the first `n` numbers of an ascending list, the least one with a property is found when fewer than
`n` come before it. -/
theorem find?_take {l : List ℕ} (hsorted : l.Pairwise (· < ·)) {p : ℕ → Bool} {i : ℕ} (hi : i ∈ l)
    (hp : p i = true) (hfirst : ∀ j ∈ l, j < i → ¬ p j = true) (n : ℕ) :
    (l.take n).find? p = if (l.filter fun j => j < i).length < n then some i else none := by
  obtain ⟨before, after, rfl⟩ := List.append_of_mem hi
  obtain ⟨-, hafter, hbefore⟩ := List.pairwise_append.mp hsorted
  have hlow : ∀ j ∈ before, j < i := fun j hj => hbefore j hj i List.mem_cons_self
  have hnone : ∀ j ∈ before, ¬ p j = true := fun j hj => hfirst j (List.mem_append_left _ hj) (hlow j hj)
  have hfilter : ((before ++ i :: after).filter fun j => j < i) = before := by
    have hhigh : ∀ j ∈ i :: after, ¬ (decide (j < i)) = true := by
      intro j hj
      rw [decide_eq_true_iff, Nat.not_lt]
      rcases List.mem_cons.mp hj with rfl | hj
      · exact le_rfl
      · exact Nat.le_of_lt (List.rel_of_pairwise_cons hafter hj)
    rw [List.filter_append, List.filter_eq_nil_iff.mpr hhigh, List.append_nil]
    exact List.filter_eq_self.mpr fun j hj => decide_eq_true (hlow j hj)
  rw [hfilter]
  split
  case isTrue hlt =>
    obtain ⟨k, rfl⟩ := Nat.exists_eq_add_of_lt hlt
    rw [List.take_append, List.take_of_length_le (by omega), List.find?_append, List.find?_eq_none.mpr hnone,
      Option.none_or, show before.length + k + 1 - before.length = k + 1 by omega, List.take_succ_cons]
    exact List.find?_cons_of_pos hp
  case isFalse hle =>
    rw [List.take_append_of_le_length (Nat.le_of_not_lt hle)]
    exact List.find?_eq_none.mpr fun j hj => hnone j (List.mem_of_mem_take hj)

end Builderbot.Lib.Occurrences
