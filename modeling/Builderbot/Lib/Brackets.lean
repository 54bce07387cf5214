import Mathlib.Combinatorics.Enumerative.DyckWord

/-!
# Matching brackets

A text with brackets among its symbols. What stands between a bracket and the one that closes it is a Dyck word, and the
closing bracket is found by counting.
-/

namespace Builderbot.Lib.Brackets

open DyckStep

section Steps

/-- The brackets that are open after some steps. -/
def height : List DyckStep → ℤ
  | [] => 0
  | U :: steps => 1 + height steps
  | D :: steps => height steps - 1

theorem height_eq (steps : List DyckStep) : height steps = steps.count U - steps.count D := by
  induction steps with
  | nil => rfl
  | cons step steps ih =>
    cases step with
    | U | D =>
      rw [height, ih, List.count_cons_self, List.count_cons_of_ne (by decide)]
      omega

theorem exists_dyckWord_iff {steps : List DyckStep} :
    (∃ w : DyckWord, w.toList = steps) ↔ height steps = 0 ∧ ∀ i, 0 ≤ height (steps.take i) := by
  constructor
  · rintro ⟨w, rfl⟩
    refine ⟨?_, fun i => ?_⟩
    · rw [height_eq, w.count_U_eq_count_D]
      omega
    · have hprefix := w.count_D_le_count_U i
      rw [height_eq]
      omega
  · rintro ⟨htotal, hprefix⟩
    rw [height_eq] at htotal
    refine ⟨⟨steps, by omega, fun i => ?_⟩, rfl⟩
    have hi := hprefix i
    rw [height_eq] at hi
    omega

/-- One bracket is open after the steps, and one before each of them. -/
def LeavesOne : ℤ → List DyckStep → Prop
  | balance, [] => balance = 1
  | balance, U :: steps => LeavesOne (balance + 1) steps
  | balance, D :: steps => balance ≠ 1 ∧ LeavesOne (balance - 1) steps

theorem leavesOne_iff {balance : ℤ} (hbalance : 0 < balance) (steps : List DyckStep) :
    LeavesOne balance steps ↔ balance + height steps = 1 ∧ ∀ i, 0 < balance + height (steps.take i) := by
  induction steps generalizing balance with
  | nil =>
    simp only [LeavesOne, List.take_nil, height, add_zero, hbalance, implies_true, and_true]
  | cons step steps ih =>
    rw [← Nat.and_forall_add_one]
    simp only [List.take_zero, List.take_succ_cons]
    cases step with
    | U =>
      rw [LeavesOne, ih (by omega : 0 < balance + 1)]
      simp only [height, add_zero, hbalance, true_and, ← add_assoc]
    | D =>
      simp only [LeavesOne, height, add_zero, hbalance, true_and, ← add_sub_assoc, ← sub_add_eq_add_sub]
      refine ⟨fun ⟨hone, h⟩ => (ih (by omega)).mp h, fun h => ?_⟩
      -- The first step closes a bracket that is not the last one.
      have hfirst := h.2 0
      rw [List.take_zero, height, add_zero] at hfirst
      exact ⟨by omega, (ih hfirst).mpr h⟩

theorem leavesOne_one_iff {steps : List DyckStep} : LeavesOne 1 steps ↔ ∃ w : DyckWord, w.toList = steps := by
  rw [leavesOne_iff (by decide), exists_dyckWord_iff]
  refine and_congr ?_ (forall_congr' fun i => ?_)
  · omega
  · omega

end Steps

variable {α : Type*} (f : α → Option DyckStep)

/-- The brackets of the text match each other. -/
def Balanced (text : List α) : Prop := ∃ w : DyckWord, w.toList = text.filterMap f

/-- The symbol that closes the last of a number of open brackets. -/
def closing : ℤ → List α → Option α
  | _, [] => none
  | balance, a :: text =>
    match f a with
    | none => closing balance text
    | some U => closing (balance + 1) text
    | some D => if balance - 1 = 0 then some a else closing (balance - 1) text

theorem closing_eq_some_iff_leavesOne {c : α} (balance : ℤ) (text : List α) : closing f balance text = some c ↔
    ∃ inner rest, text = inner ++ c :: rest ∧ f c = some D ∧ LeavesOne balance (inner.filterMap f) := by
  have hcons (a : α) (text : List α) (p : List α → Prop) :
      (∃ inner rest, a :: text = inner ++ c :: rest ∧ p inner) ↔
        a = c ∧ p [] ∨ ∃ inner rest, text = inner ++ c :: rest ∧ p (a :: inner) := by
    constructor
    · rintro ⟨inner, rest, heq, hp⟩
      cases inner with
      | nil => exact .inl ⟨(List.cons.inj heq).1, hp⟩
      | cons b inner =>
        obtain ⟨rfl, htext⟩ := List.cons.inj heq
        exact .inr ⟨inner, rest, htext, hp⟩
    · rintro (⟨rfl, hp⟩ | ⟨inner, rest, rfl, hp⟩)
      · exact ⟨[], text, rfl, hp⟩
      · exact ⟨a :: inner, rest, rfl, hp⟩
  induction text generalizing balance with
  | nil =>
    refine iff_of_false (Option.some_ne_none c ∘ Eq.symm) ?_
    rintro ⟨inner, rest, heq, -⟩
    exact List.append_ne_nil_of_right_ne_nil inner (List.cons_ne_nil c rest) heq.symm
  | cons a text ih =>
    rw [hcons a text fun inner => f c = some D ∧ LeavesOne balance (inner.filterMap f), closing]
    cases ha : f a with
    | none =>
      have hnot : ¬ (a = c ∧ f c = some D ∧ LeavesOne balance (List.filterMap f [])) := by
        rintro ⟨rfl, hc, -⟩
        exact absurd (ha.symm.trans hc) (Option.some_ne_none D ∘ Eq.symm)
      simp only [or_iff_right hnot, List.filterMap_cons, ha, ih]
    | some step =>
      cases step with
      | U =>
        have hnot : ¬ (a = c ∧ f c = some D ∧ LeavesOne balance (List.filterMap f [])) := by
          rintro ⟨rfl, hc, -⟩
          exact absurd (Option.some.inj (ha.symm.trans hc)) (by decide)
        simp only [or_iff_right hnot, List.filterMap_cons, ha, ih, LeavesOne]
      | D =>
        simp only [List.filterMap_cons, List.filterMap_nil, ha, LeavesOne]
        -- the bracket that closes is the first to bring the balance to zero
        by_cases hone : balance = 1
        · subst hone
          simp only [sub_self, if_true, Option.some_inj, ne_eq, not_true_eq_false, false_and, and_false,
            exists_false, or_false, and_true]
          constructor
          · rintro rfl
            exact ⟨rfl, ha⟩
          · exact fun h => h.1
        · have hmore : balance - 1 ≠ 0 := by omega
          simp only [hmore, if_false, hone, ne_eq, not_false_eq_true, true_and, and_false, false_or]
          exact ih (balance - 1)

/-- The symbol that is found closes an open bracket. -/
theorem closing_eq_some_iff {c : α} {text : List α} : closing f 1 text = some c ↔
    ∃ inner rest, text = inner ++ c :: rest ∧ f c = some D ∧ Balanced f inner := by
  simp only [closing_eq_some_iff_leavesOne, leavesOne_one_iff, Balanced]

theorem closing_eq_none_iff {text : List α} : closing f 1 text = none ↔
    ∀ inner c rest, text = inner ++ c :: rest → f c = some D → ¬ Balanced f inner := by
  rw [Option.eq_none_iff_forall_ne_some]
  constructor
  · exact fun h inner c rest htext hc hinner => h c ((closing_eq_some_iff f).mpr ⟨inner, rest, htext, hc, hinner⟩)
  · intro h c hsome
    obtain ⟨inner, rest, htext, hc, hinner⟩ := (closing_eq_some_iff f).mp hsome
    exact h inner c rest htext hc hinner

end Builderbot.Lib.Brackets
