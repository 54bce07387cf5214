import Mathlib.Data.List.Basic

/-!
# Transducers

A machine that reads one symbol at a time, changes its state and puts out a list. Where every piece of the input is read as
one step of a second machine over the pieces, the first machine over the spelled-out input is the second over the pieces.

`origins` are the places of the input that the output comes from. `transduce_slice` says which part of the input gives a part
of the output.
-/

namespace Builderbot.Lib.Transducer

variable {S T A P B : Type*}

/-- The state after the input, and the output. -/
def transduce (step : S → A → S × List B) (s : S) : List A → S × List B
  | [] => (s, [])
  | a :: as =>
    let (s', out) := step s a
    let r := transduce step s' as
    (r.1, out ++ r.2)

variable (step : S → A → S × List B)

@[simp]
theorem transduce_nil (s : S) : transduce step s [] = (s, []) := rfl

@[simp]
theorem transduce_cons (s : S) (a : A) (as : List A) : transduce step s (a :: as) =
    ((transduce step (step s a).1 as).1, (step s a).2 ++ (transduce step (step s a).1 as).2) := rfl

theorem transduce_append (s : S) (as bs : List A) : transduce step s (as ++ bs) =
    ((transduce step (transduce step s as).1 bs).1,
      (transduce step s as).2 ++ (transduce step (transduce step s as).1 bs).2) := by
  induction as generalizing s with
  | nil => rfl
  | cons a as ih => rw [List.cons_append, transduce_cons, ih, transduce_cons, List.append_assoc]

/-- Symbols that change nothing. -/
theorem transduce_silent {s : S} {as : List A} (h : ∀ a ∈ as, step s a = (s, [])) : transduce step s as = (s, []) := by
  induction as with
  | nil => rfl
  | cons a as ih =>
    obtain ⟨ha, has⟩ := List.forall_mem_cons.mp h
    rw [transduce_cons, ha, ih has]
    rfl

/-- Symbols that are put out as they are. -/
theorem transduce_echo {step : S → A → S × List A} {s : S} {as : List A} (h : ∀ a ∈ as, step s a = (s, [a])) :
    transduce step s as = (s, as) := by
  induction as with
  | nil => rfl
  | cons a as ih =>
    obtain ⟨ha, has⟩ := List.forall_mem_cons.mp h
    rw [transduce_cons, ha, ih has]
    rfl

/-- A machine over pieces describes one over their symbols when it describes it on each piece. -/
theorem transduce_flatMap {coarse : T → P → T × List B} {spell : P → List A} {rel : T → S}
    (h : ∀ t p, transduce step (rel t) (spell p) = (rel (coarse t p).1, (coarse t p).2)) (t : T) (ps : List P) :
    transduce step (rel t) (ps.flatMap spell) = (rel (transduce coarse t ps).1, (transduce coarse t ps).2) := by
  induction ps generalizing t with
  | nil => rfl
  | cons p ps ih => rw [List.flatMap_cons, transduce_append, h, ih, transduce_cons]

/-! ## Where the output comes from -/

/-- The positions of the symbols for which something is put out, and the one behind the last symbol. -/
def origins (step : S → A → S × List B) : S → ℕ → List A → List ℕ
  | _, pos, [] => [pos]
  | s, pos, a :: as =>
    if (step s a).2.isEmpty then origins step (step s a).1 (pos + 1) as
    else pos :: origins step (step s a).1 (pos + 1) as

section Origins

variable {step : S → A → S × List B} (hone : ∀ s a, (step s a).2.length ≤ 1)
include hone

theorem length_origins (s : S) (pos : ℕ) (as : List A) :
    (origins step s pos as).length = (transduce step s as).2.length + 1 := by
  induction as generalizing s pos with
  | nil => rfl
  | cons a as ih =>
    rw [origins, transduce_cons, List.length_append]
    have hle := hone s a
    split
    case isTrue hempty =>
      rw [List.isEmpty_iff.mp hempty, ih, List.length_nil, Nat.zero_add]
    case isFalse hemits =>
      have hpos : 0 < (step s a).2.length := List.length_pos_iff.mpr fun hnil => hemits (List.isEmpty_iff.mpr hnil)
      rw [List.length_cons, ih]
      omega

variable {s₀ : S} (hfresh : ∀ s a, (step s a).2 ≠ [] → step s₀ a = step s a)
include hfresh

/-- A machine that could have been started where it puts something out: the input can be cut where a symbol of the output
comes from. -/
theorem exists_cut {s : S} {pos : ℕ} {as : List A} {l : ℕ} (hl : l ≤ (transduce step s as).2.length) :
    ∃ pre post, as = pre ++ post ∧ (origins step s pos as)[l]? = some (pos + pre.length) ∧
      (transduce step s pre).2 = (transduce step s as).2.take l ∧
      (transduce step s₀ post).2 = (transduce step s as).2.drop l ∧
      origins step s₀ (pos + pre.length) post = (origins step s pos as).drop l := by
  induction as generalizing s pos l with
  | nil =>
    obtain rfl := Nat.le_zero.mp hl
    exact ⟨[], [], rfl, rfl, rfl, rfl, rfl⟩
  | cons a as ih =>
    rw [transduce_cons, List.length_append] at hl
    rw [origins]
    split
    -- nothing comes out here: the cut is later
    case isTrue hempty =>
      have hnil : (step s a).2 = [] := List.isEmpty_iff.mp hempty
      rw [hnil, List.length_nil, Nat.zero_add] at hl
      obtain ⟨pre, post, rfl, hat, htake, hdrop, hrest⟩ := @ih (step s a).1 (pos + 1) l hl
      have hshift : pos + (a :: pre).length = pos + 1 + pre.length := by
        rw [List.length_cons]
        omega
      refine ⟨a :: pre, post, rfl, hshift ▸ hat, ?_, ?_, hshift ▸ hrest⟩
      · rw [transduce_cons, transduce_cons, hnil, List.nil_append, List.nil_append, htake]
      · rw [transduce_cons, hnil, List.nil_append, hdrop]
    case isFalse hemits =>
      have hne : (step s a).2 ≠ [] := fun hnil => hemits (List.isEmpty_iff.mpr hnil)
      obtain ⟨b, hb⟩ : ∃ b, (step s a).2 = [b] :=
        List.length_eq_one_iff.mp (Nat.le_antisymm (hone s a) (List.length_pos_iff.mpr hne))
      cases l with
      -- the cut is before the first symbol, which emits and is read alike from a fresh state
      | zero =>
        refine ⟨[], a :: as, rfl, rfl, rfl, ?_, ?_⟩
        · rw [transduce_cons, transduce_cons, hfresh s a hne, List.drop_zero]
        · rw [origins, hfresh s a hne, if_neg hemits]
          rfl
      | succ l =>
        rw [hb, List.length_singleton] at hl
        obtain ⟨pre, post, rfl, hat, htake, hdrop, hrest⟩ := @ih (step s a).1 (pos + 1) l (by omega)
        have hshift : pos + (a :: pre).length = pos + 1 + pre.length := by
          rw [List.length_cons]
          omega
        refine ⟨a :: pre, post, rfl, ?_, ?_, ?_, ?_⟩
        · rw [hshift, List.getElem?_cons_succ]
          exact hat
        · rw [transduce_cons, transduce_cons, hb, List.singleton_append, List.singleton_append, List.take_succ_cons,
            htake]
        · rw [transduce_cons, hb, List.singleton_append, List.drop_succ_cons, hdrop]
        · rw [hshift, List.drop_succ_cons]
          exact hrest

/-- A part of the output is what the input gives from where the part begins to where the next symbol comes from. -/
theorem transduce_slice {as : List A} {k l p q : ℕ} (hkl : k ≤ l) (hp : (origins step s₀ 0 as)[k]? = some p)
    (hq : (origins step s₀ 0 as)[l]? = some q) :
    (transduce step s₀ ((as.take q).drop p)).2 = ((transduce step s₀ as).2.take l).drop k ∧ p ≤ q ∧ q ≤ as.length := by
  have hl : l ≤ (transduce step s₀ as).2.length := by
    obtain ⟨hlt, -⟩ := List.getElem?_eq_some_iff.mp hq
    rw [length_origins hone] at hlt
    exact Nat.le_of_lt_succ hlt
  obtain ⟨pre, post, rfl, hat, -, hdrop, hrest⟩ := @exists_cut _ _ _ _ hone _ hfresh s₀ 0 as k (Nat.le_trans hkl hl)
  rw [Nat.zero_add] at hat hrest
  obtain rfl := Option.some.inj (hp.symm.trans hat)
  have hlen : l - k ≤ (transduce step s₀ post).2.length := by
    rw [hdrop, List.length_drop]
    omega
  obtain ⟨mid, rest, rfl, hat', htake, -, -⟩ := @exists_cut _ _ _ _ hone _ hfresh s₀ pre.length post (l - k) hlen
  rw [hrest, List.getElem?_drop, Nat.add_sub_cancel' hkl, hq, Option.some.injEq] at hat'
  subst hat'
  have hslice : ((pre ++ (mid ++ rest)).take (pre.length + mid.length)).drop pre.length = mid := by
    rw [← List.append_assoc, ← List.length_append, List.take_left, List.drop_left]
  refine ⟨?_, Nat.le_add_right _ _, ?_⟩
  · rw [hslice, htake, hdrop, List.drop_take]
  · rw [List.length_append, List.length_append]
    omega

end Origins

end Builderbot.Lib.Transducer
