import Builderbot.Lib.ByteText

/-!
# Loops that search by byte offset

A loop that looks for a pattern from a position on, tests each occurrence, and goes on after it. It
slices the text at every turn, which may panic, and it may not end; both are results here. Where the
test does not panic and no accepted position lies inside a rejected occurrence, the loop gives the
first accepted position within as many turns as the text has bytes.
-/

namespace Builderbot.Lib.ByteSearch

open Builderbot.Lib.Text Builderbot.Lib.ByteText

/-- Why a loop gives no result: a panic, or the given number of turns was not enough. -/
inductive Stop where
  | panic
  | running
deriving DecidableEq

def orPanic {α : Type} : Option α → Except Stop α
  | some a => .ok a
  | none => .error .panic

@[simp] theorem orPanic_some {α : Type} (a : α) : orPanic (some a) = .ok a := rfl

/-- The loop, for at most `fuel` turns. -/
def searchFrom (text pat : List Char) (accept : ℕ → Except Stop Bool) : ℕ → ℕ → Except Stop (Option ℕ)
  | 0, _ => .error .running
  | fuel + 1, pos =>
    if pos < byteLength text then do
      match find pat (← orPanic (sliceFrom pos text)) with
      | none => return none
      | some candidate =>
        let abs := pos + candidate
        if ← accept abs then return some abs
        else searchFrom text pat accept fuel (abs + byteLength pat)
    else return none

/-- The first split of a text with a property. -/
def FirstSplit (P : List Char → List Char → Prop) (text a b : List Char) : Prop :=
  text = a ++ b ∧ P a b ∧ ∀ a' b', text = a' ++ b' → P a' b' → byteLength a ≤ byteLength a'

theorem FirstSplit.unique {P : List Char → List Char → Prop} {text a b a' b' : List Char}
    (h : FirstSplit P text a b) (h' : FirstSplit P text a' b') : a = a' ∧ b = b' := by
  obtain ⟨htext, hP, hmin⟩ := h
  obtain ⟨htext', hP', hmin'⟩ := h'
  have hle := hmin a' b' htext' hP'
  have hge := hmin' a b htext hP
  exact append_inj_byteLength (htext.symm.trans htext') (by omega)

/-- The result of a search for the first split with a property. -/
def Finds (P : List Char → List Char → Prop) (text : List Char) : Option ℕ → Prop
  | some n => ∃ a b, FirstSplit P text a b ∧ n = byteLength a
  | none => ∀ a b, text = a ++ b → ¬ P a b

section Search

variable {text pat : List Char} {accept : ℕ → Except Stop Bool} {P : List Char → List Char → Prop}

/-- The loop from a position on before which nothing is accepted. -/
theorem searchFrom_spec_from (hpat : pat ≠ []) (hstart : ∀ {a b}, P a b → pat <+: b)
    (haccept : ∀ {a b}, text = a ++ pat ++ b → ∃ r, accept (byteLength a) = .ok r ∧ (r = true ↔ P a (pat ++ b)))
    (hinside : ∀ {a b a' b'}, text = a ++ pat ++ b → text = a' ++ b' → P a' b' → byteLength a < byteLength a' →
      byteLength a + byteLength pat ≤ byteLength a')
    {fuel : ℕ} {a b : List Char} (htext : text = a ++ b)
    (hbefore : ∀ a' b', text = a' ++ b' → P a' b' → byteLength a ≤ byteLength a')
    (hfuel : byteLength b < fuel) :
    ∃ r, searchFrom text pat accept fuel (byteLength a) = .ok r ∧ Finds P text r := by
  have hlenPat : 0 < byteLength pat :=
    Nat.pos_of_ne_zero fun hzero => hpat (byteLength_eq_zero.mp hzero)
  induction fuel generalizing a b with
  | zero => exact absurd hfuel (Nat.not_lt_zero _)
  | succ fuel ih =>
    have hlen : byteLength text = byteLength a + byteLength b := by rw [htext, byteLength_append]
    -- what is accepted begins with the pattern after `a`
    have hafter : ∀ {a' b'}, text = a' ++ b' → P a' b' → ∃ m s, a' = a ++ m ∧ b = m ++ pat ++ s ∧ b' = pat ++ s := by
      intro a' b' htext' hP
      obtain ⟨m, rfl, rfl⟩ := exists_append_of_byteLength_le (htext.symm.trans htext') (hbefore a' b' htext' hP)
      obtain ⟨s, rfl⟩ := hstart hP
      exact ⟨m, s, rfl, by rw [List.append_assoc], rfl⟩
    rw [searchFrom]
    split
    · have hslice : sliceFrom (byteLength a) text = some b := by
        rw [htext]
        exact sliceFrom_append a b
      rw [hslice]
      simp only [orPanic_some, bind, Except.bind]
      cases hfind : find pat b with
      | none =>
        rw [find_eq_none_iff, splitOnce_eq_none_iff] at hfind
        refine ⟨none, rfl, ?_⟩
        intro a' b' htext' hP
        obtain ⟨m, s, -, rfl, -⟩ := hafter htext' hP
        exact hfind ⟨m, s, rfl⟩
      | some candidate =>
        obtain ⟨p, s, hsplit, rfl⟩ := find_eq_some_iff.mp hfind
        obtain ⟨rfl, hmin⟩ := splitOnce_eq_some_iff.mp hsplit
        have htext' : text = (a ++ p) ++ pat ++ s := by
          rw [htext]
          simp only [List.append_assoc]
        obtain ⟨r, hr, hP⟩ := haccept htext'
        have hfirst : ∀ a' b', text = a' ++ b' → P a' b' → byteLength (a ++ p) ≤ byteLength a' := by
          intro a' b' heq hPa
          obtain ⟨m, t, rfl, hm, -⟩ := hafter heq hPa
          have hle := hmin m t hm
          have hwhole : m <+: p ++ (pat ++ s) := by
            rw [← List.append_assoc, hm, List.append_assoc]
            exact List.prefix_append m _
          have hprefix : p <+: m := List.prefix_of_prefix_length_le (List.prefix_append p _) hwhole hle
          obtain ⟨u, rfl⟩ := hprefix
          simp only [byteLength_append]
          omega
        simp only [← byteLength_append, hr]
        cases r with
        | true =>
          refine ⟨some (byteLength (a ++ p)), rfl, a ++ p, pat ++ s, ⟨?_, hP.mp rfl, hfirst⟩, rfl⟩
          rw [htext', List.append_assoc]
        | false =>
          have hnot : ¬ P (a ++ p) (pat ++ s) := fun h => absurd (hP.mpr h) Bool.false_ne_true
          rw [if_neg Bool.false_ne_true]
          apply ih htext'
          · intro a' b' heq hPa
            have hle := hfirst a' b' heq hPa
            have hne : byteLength (a ++ p) ≠ byteLength a' := by
              intro hlen
              rw [List.append_assoc] at htext'
              obtain ⟨rfl, rfl⟩ := append_inj_byteLength (htext'.symm.trans heq) hlen
              exact hnot hPa
            have hge := hinside htext' heq hPa (by omega)
            rw [byteLength_append]
            exact hge
          · simp only [byteLength_append] at hfuel
            omega
    · rename_i hend
      refine ⟨none, rfl, ?_⟩
      intro a' b' htext' hP
      obtain ⟨m, s, -, rfl, -⟩ := hafter htext' hP
      simp only [byteLength_append] at hlen
      omega

/-- The loop from the beginning finds the first split that is accepted. -/
theorem searchFrom_spec (hpat : pat ≠ []) (hstart : ∀ {a b}, P a b → pat <+: b)
    (haccept : ∀ {a b}, text = a ++ pat ++ b → ∃ r, accept (byteLength a) = .ok r ∧ (r = true ↔ P a (pat ++ b)))
    (hinside : ∀ {a b a' b'}, text = a ++ pat ++ b → text = a' ++ b' → P a' b' → byteLength a < byteLength a' →
      byteLength a + byteLength pat ≤ byteLength a')
    {fuel : ℕ} (hfuel : byteLength text < fuel) :
    ∃ r, searchFrom text pat accept fuel 0 = .ok r ∧ Finds P text r :=
  searchFrom_spec_from hpat hstart haccept hinside (a := []) rfl (fun _ _ _ _ => Nat.zero_le _) hfuel

end Search

end Builderbot.Lib.ByteSearch
