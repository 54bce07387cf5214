import Builderbot.DiffViewer.LcsIndices
import Mathlib.Data.List.GetD
import Mathlib.Data.List.Nodup

/-!
# Line classes

`computeLineDiff` of `packages/diff-viewer/src/lib/utils/inlineDiff.ts`. The lines outside the longest common subsequence
are paired by a loop with two cursors, which may skip after lines in order to reach a similar one.

`Paired` says what the loop does to the lines that are left to it and that it leaves the classes of the others alone;
`computeLineDiff_consistent` is the result for the whole function.
-/

namespace Builderbot.DiffViewer

open Lib
open scoped List

/-- The classes of the lines and the pairs fit together. -/
structure LineDiffResult.Consistent (beforeLines afterLines : List JsString) (r : LineDiffResult) : Prop where
  unchanged_eq : keepAt (fun i => r.beforeLines[i]? = some .unchanged) beforeLines =
    keepAt (fun i => r.afterLines[i]? = some .unchanged) afterLines
  longest : CommonLe beforeLines afterLines (keepAt (fun i => r.beforeLines[i]? = some .unchanged) beforeLines).length
  before_lt : (r.modifiedPairs.map (·.beforeLineIndex)).Pairwise (· < ·)
  after_lt : (r.modifiedPairs.map (·.afterLineIndex)).Pairwise (· < ·)
  before_modified_iff : ∀ i,
    r.beforeLines[i]? = some .modified ↔ (r.modifiedPairs.map (·.beforeLineIndex)).count i = 1
  after_modified_iff : ∀ i,
    r.afterLines[i]? = some .modified ↔ (r.modifiedPairs.map (·.afterLineIndex)).count i = 1
  similar : ∀ pair ∈ r.modifiedPairs, ∃ before ∈ beforeLines[pair.beforeLineIndex]?,
    ∃ after ∈ afterLines[pair.afterLineIndex]?, SIMILARITY_THRESHOLD < similarity (trim before) (trim after)
  removed : ∀ i < beforeLines.length, r.beforeLines[i]? ≠ some .unchanged → r.beforeLines[i]? ≠ some .modified →
    r.beforeLines[i]? = some .removed
  added : ∀ i < afterLines.length, r.afterLines[i]? ≠ some .unchanged → r.afterLines[i]? ≠ some .modified →
    r.afterLines[i]? = some .added

/-! ## The steps of the loop -/

theorem getElem?_foldl_set {α : Type*} (c : α) {indices : List ℕ} {classes : List α}
    (h : ∀ i ∈ indices, i < classes.length) (k : ℕ) :
    (indices.foldl (fun cs i => cs.set i c) classes)[k]? = if k ∈ indices then some c else classes[k]? := by
  induction indices generalizing classes with
  | nil => rfl
  | cons i indices ih =>
    obtain ⟨hi, hindices⟩ := List.forall_mem_cons.mp h
    have hset : ∀ j ∈ indices, j < (classes.set i c).length := by
      rw [List.length_set]
      exact hindices
    rw [List.foldl_cons, ih hset, List.getElem?_set, if_pos hi]
    by_cases hk : k ∈ indices
    · rw [if_pos hk, if_pos (List.mem_cons_of_mem _ hk)]
    · rw [if_neg hk]
      simp only [List.mem_cons, hk, or_false, eq_comm]

/-- The scan stops at an entry that passes. -/
theorem scanAhead_eq_some {p : ℕ → Bool} {n : ℕ} {xs skipped rest : List ℕ} {x : ℕ}
    (h : scanAhead p n xs = some (skipped, x, rest)) : xs = skipped ++ x :: rest ∧ p x = true := by
  induction n generalizing xs skipped with
  | zero => cases xs <;> cases h
  | succ n ih =>
    cases xs with
    | nil => cases h
    | cons y ys =>
      rw [scanAhead] at h
      split at h
      next hy =>
        cases h
        exact ⟨rfl, hy⟩
      next =>
        obtain ⟨⟨skipped', x', rest'⟩, hscan, heq⟩ := Option.map_eq_some_iff.mp h
        cases heq
        obtain ⟨hys, hx⟩ := ih hscan
        exact ⟨congrArg (y :: ·) hys, hx⟩

/-- What the loop has done from `r` to `s` with the lines left to it: `pairs` of them, in order, are modified, and the
others have the class of their side. -/
structure Paired (beforeLines afterLines : List JsString) (unmatchedBefore unmatchedAfter : List ℕ)
    (r s : LineDiffResult) (pairs : List ModifiedPair) : Prop where
  modifiedPairs : s.modifiedPairs = r.modifiedPairs ++ pairs
  before_sublist : pairs.map (·.beforeLineIndex) <+ unmatchedBefore
  after_sublist : pairs.map (·.afterLineIndex) <+ unmatchedAfter
  similar : ∀ pair ∈ pairs, similarLines beforeLines afterLines pair.beforeLineIndex pair.afterLineIndex = true
  before : ∀ i, s.beforeLines[i]? =
    if i ∈ pairs.map (·.beforeLineIndex) then some .modified
    else if i ∈ unmatchedBefore then some .removed else r.beforeLines[i]?
  after : ∀ i, s.afterLines[i]? =
    if i ∈ pairs.map (·.afterLineIndex) then some .modified
    else if i ∈ unmatchedAfter then some .added else r.afterLines[i]?

namespace Paired

variable {beforeLines afterLines : List JsString} {bIdx : ℕ} {unmatchedBefore : List ℕ} {r s : LineDiffResult}
  {pairs : List ModifiedPair}

/-- A before line is removed, and the loop goes on with the same after lines. -/
theorem of_removed {unmatchedAfter : List ℕ} (hlt : bIdx < r.beforeLines.length) (hnotMem : bIdx ∉ unmatchedBefore)
    (h : Paired beforeLines afterLines unmatchedBefore unmatchedAfter
      { r with beforeLines := r.beforeLines.set bIdx .removed } s pairs) :
    Paired beforeLines afterLines (bIdx :: unmatchedBefore) unmatchedAfter r s pairs where
  modifiedPairs := h.modifiedPairs
  before_sublist := h.before_sublist.cons bIdx
  after_sublist := h.after_sublist
  similar := h.similar
  before i := by
    rw [h.before i, List.getElem?_set, if_pos hlt]
    by_cases hi : bIdx = i
    · subst hi
      rw [if_neg hnotMem, if_pos rfl, if_pos List.mem_cons_self]
    · rw [if_neg hi]
      simp only [List.mem_cons, Ne.symm hi, false_or]
  after := h.after

/-- A before line is paired with an after line, the ones before that are added, and the loop goes on after it. -/
theorem of_modified {skipped rest : List ℕ} (pair : ModifiedPair) (hbIdx : pair.beforeLineIndex = bIdx)
    (hlt : bIdx < r.beforeLines.length) (hnotMem : bIdx ∉ unmatchedBefore) (hafter : (skipped ++ pair.afterLineIndex :: rest).Nodup)
    (hafterLt : ∀ i ∈ skipped ++ pair.afterLineIndex :: rest, i < r.afterLines.length)
    (hsimilar : similarLines beforeLines afterLines bIdx pair.afterLineIndex = true)
    (h : Paired beforeLines afterLines unmatchedBefore rest
      { beforeLines := r.beforeLines.set bIdx .modified
        afterLines := (skipped.foldl (fun cs a => cs.set a .added) r.afterLines).set pair.afterLineIndex .modified
        modifiedPairs := r.modifiedPairs ++ [pair] } s pairs) :
    Paired beforeLines afterLines (bIdx :: unmatchedBefore) (skipped ++ pair.afterLineIndex :: rest) r s (pair :: pairs) where
  modifiedPairs := by
    rw [h.modifiedPairs, List.append_assoc]
    rfl
  before_sublist := by
    rw [List.map_cons, hbIdx]
    exact h.before_sublist.cons_cons bIdx
  after_sublist := (h.after_sublist.cons_cons pair.afterLineIndex).trans (List.sublist_append_right skipped _)
  similar := List.forall_mem_cons.mpr ⟨by rw [hbIdx]; exact hsimilar, h.similar⟩
  before i := by
    rw [h.before i, List.getElem?_set, if_pos hlt, List.map_cons, hbIdx]
    by_cases hi : bIdx = i
    · subst hi
      rw [if_neg hnotMem, if_pos rfl, if_pos List.mem_cons_self, ite_self]
    · rw [if_neg hi]
      simp only [List.mem_cons, Ne.symm hi, false_or]
  after i := by
    have hskipped : ∀ k ∈ skipped, k < r.afterLines.length := fun k hk => hafterLt k (List.mem_append_left _ hk)
    have hpair : pair.afterLineIndex < r.afterLines.length :=
      hafterLt _ (List.mem_append_right skipped List.mem_cons_self)
    rw [h.after i, List.getElem?_set, length_foldl_set, if_pos hpair, getElem?_foldl_set _ hskipped, List.map_cons]
    by_cases hi : pair.afterLineIndex = i
    · -- the index of the pair does not come again
      subst hi
      have hrest : pair.afterLineIndex ∉ rest := (List.nodup_cons.mp (List.nodup_append.mp hafter).2.1).1
      rw [if_neg hrest, if_pos rfl, if_pos List.mem_cons_self, ite_self]
    · rw [if_neg hi]
      simp only [List.mem_append, List.mem_cons, Ne.symm hi, false_or]
      by_cases hrest : i ∈ rest
      · simp only [hrest, if_true, or_true]
      · simp only [hrest, if_false, or_false]

end Paired

section Loop

variable (isLetterOrNumber : ℕ → Bool) (beforeLines afterLines : List JsString)

/-- The whole loop. -/
theorem paired_pairLines {unmatchedBefore unmatchedAfter : List ℕ} {r : LineDiffResult}
    (hbefore : unmatchedBefore.Nodup) (hafter : unmatchedAfter.Nodup)
    (hbeforeLt : ∀ i ∈ unmatchedBefore, i < r.beforeLines.length)
    (hafterLt : ∀ i ∈ unmatchedAfter, i < r.afterLines.length) :
    ∃ pairs, Paired beforeLines afterLines unmatchedBefore unmatchedAfter r
      (pairLines isLetterOrNumber beforeLines afterLines unmatchedBefore unmatchedAfter r) pairs := by
  induction unmatchedBefore generalizing unmatchedAfter r with
  | nil =>
    exact ⟨[], (List.append_nil _).symm, List.nil_sublist _, List.nil_sublist _, List.forall_mem_nil _,
      fun i => rfl, getElem?_foldl_set _ hafterLt⟩
  | cons bIdx unmatchedBefore ih =>
    obtain ⟨hnotMem, hbefore⟩ := List.nodup_cons.mp hbefore
    obtain ⟨hbIdx, hbeforeLt⟩ := List.forall_mem_cons.mp hbeforeLt
    rw [pairLines]
    split
    -- a similar line lies ahead: those before it are added, the two are a pair
    next skipped aIdx rest hscan =>
      obtain ⟨rfl, hsimilar⟩ := scanAhead_eq_some hscan
      obtain ⟨-, hrest, -⟩ := List.nodup_append.mp hafter
      have hbeforeLt' : ∀ i ∈ unmatchedBefore, i < (r.beforeLines.set bIdx .modified).length := by
        rw [List.length_set]
        exact hbeforeLt
      have hafterLt' : ∀ i ∈ rest,
          i < ((skipped.foldl (fun cs a => cs.set a .added) r.afterLines).set aIdx .modified).length := by
        intro i hi
        rw [List.length_set, length_foldl_set]
        exact hafterLt i (List.mem_append_right skipped (List.mem_cons_of_mem aIdx hi))
      obtain ⟨pairs, hpairs⟩ := ih (r := ⟨_, _, _⟩) hbefore (List.nodup_cons.mp hrest).2 hbeforeLt' hafterLt'
      exact ⟨_, hpairs.of_modified (modifiedPair isLetterOrNumber beforeLines afterLines bIdx aIdx) rfl hbIdx hnotMem
        hafter hafterLt hsimilar⟩
    -- none is similar: the line is removed
    next hscan =>
      have hbeforeLt' : ∀ i ∈ unmatchedBefore, i < (r.beforeLines.set bIdx .removed).length := by
        rw [List.length_set]
        exact hbeforeLt
      obtain ⟨pairs, hpairs⟩ := ih (r := { r with beforeLines := r.beforeLines.set bIdx .removed }) hbefore hafter
        hbeforeLt' hafterLt
      exact ⟨pairs, hpairs.of_removed hbIdx hnotMem⟩

end Loop

/-! ## The classes of one side -/

section Side

variable {γ : Type*} {modified other unchanged : γ} {classes : List γ} {n : ℕ} {matched paired : List ℕ}
  (hsub : paired <+ (List.range n).filter (· ∉ matched))
  (hclasses : ∀ i, classes[i]? =
    if i ∈ paired then some modified
    else if i ∈ (List.range n).filter (· ∉ matched) then some other else (List.replicate n unchanged)[i]?)

include hclasses in
theorem class_other {i : ℕ} (hi : i < n) (hunchanged : classes[i]? ≠ some unchanged) (hmodified : classes[i]? ≠ some modified) :
    classes[i]? = some other := by
  rw [hclasses i] at hunchanged hmodified ⊢
  split_ifs at hunchanged hmodified ⊢ with hpaired hunmatched
  · exact absurd rfl hmodified
  · rfl
  · rw [List.getElem?_replicate, if_pos hi] at hunchanged
    exact absurd rfl hunchanged

include hsub

theorem paired_pairwise_lt : paired.Pairwise (· < ·) :=
  (List.pairwise_lt_range.sublist List.filter_sublist).sublist hsub

theorem mem_unmatched {i : ℕ} (hi : i ∈ paired) : i < n ∧ i ∉ matched := by
  obtain ⟨hrange, hnotMem⟩ := List.mem_filter.mp (hsub.subset hi)
  exact ⟨List.mem_range.mp hrange, of_decide_eq_true hnotMem⟩

include hclasses

theorem class_unchanged_iff (hmodified : modified ≠ unchanged) (hother : other ≠ unchanged) {i : ℕ} (hi : i < n) :
    classes[i]? = some unchanged ↔ i ∈ matched := by
  rw [hclasses i]
  by_cases hmem : i ∈ matched
  · have hpaired : i ∉ paired := fun h => (mem_unmatched hsub h).2 hmem
    have hunmatched : i ∉ (List.range n).filter (· ∉ matched) := fun h =>
      of_decide_eq_true (List.mem_filter.mp h).2 hmem
    rw [if_neg hpaired, if_neg hunmatched, List.getElem?_replicate, if_pos hi]
    exact ⟨fun _ => hmem, fun _ => rfl⟩
  · have hunmatched : i ∈ (List.range n).filter (· ∉ matched) :=
      List.mem_filter.mpr ⟨List.mem_range.mpr hi, decide_eq_true hmem⟩
    rw [if_pos hunmatched]
    split
    · exact ⟨fun h => absurd (Option.some.inj h) hmodified, fun h => absurd h hmem⟩
    · exact ⟨fun h => absurd (Option.some.inj h) hother, fun h => absurd h hmem⟩

theorem class_modified_iff (hmodified : modified ≠ unchanged) (hother : other ≠ modified) (i : ℕ) :
    classes[i]? = some modified ↔ paired.count i = 1 := by
  have hcount : paired.count i = 1 ↔ i ∈ paired := by
    have hnodup : paired.Nodup := (paired_pairwise_lt hsub).imp fun h => Nat.ne_of_lt h
    exact ⟨fun h => List.count_pos_iff.mp (by omega), fun h => List.count_eq_one_of_mem hnodup h⟩
  rw [hcount, hclasses i]
  by_cases hpaired : i ∈ paired
  · rw [if_pos hpaired]
    exact ⟨fun _ => hpaired, fun _ => rfl⟩
  · rw [if_neg hpaired, List.getElem?_replicate]
    refine ⟨fun h => ?_, fun h => absurd h hpaired⟩
    split_ifs at h
    · exact absurd (Option.some.inj h) hother
    · exact absurd (Option.some.inj h).symm hmodified

end Side

/-- The classes and the pairs of `computeLineDiff` fit together, for all lines. -/
theorem computeLineDiff_consistent (isLetterOrNumber : ℕ → Bool) (beforeLines afterLines : List JsString) :
    (computeLineDiff isLetterOrNumber beforeLines afterLines).Consistent beforeLines afterLines := by
  have hlt : ∀ (n : ℕ) (matched : List ℕ), ∀ i ∈ (List.range n).filter (· ∉ matched), i < n :=
    fun n matched i hi => List.mem_range.mp (List.mem_of_mem_filter hi)
  have hloop : ∃ pairs, Paired beforeLines afterLines
      ((List.range beforeLines.length).filter (· ∉ (lcsIndices beforeLines afterLines).1))
      ((List.range afterLines.length).filter (· ∉ (lcsIndices beforeLines afterLines).2))
      ⟨List.replicate beforeLines.length .unchanged, List.replicate afterLines.length .unchanged, []⟩
      (computeLineDiff isLetterOrNumber beforeLines afterLines) pairs := by
    refine paired_pairLines isLetterOrNumber beforeLines afterLines (List.nodup_range.filter _)
      (List.nodup_range.filter _) ?_ ?_
    · rw [List.length_replicate]
      exact hlt _ _
    · rw [List.length_replicate]
      exact hlt _ _
  obtain ⟨pairs, h⟩ := hloop
  -- from here only what `Paired` says of the result is used
  generalize computeLineDiff isLetterOrNumber beforeLines afterLines = s at h
  have hpairs : s.modifiedPairs = pairs := h.modifiedPairs
  have hbefore : keepAt (fun i => s.beforeLines[i]? = some .unchanged) beforeLines =
      keepAt (· ∈ (lcsIndices beforeLines afterLines).1) beforeLines :=
    keepAt_congr fun i hi => decide_eq_decide.mpr
      (class_unchanged_iff h.before_sublist h.before (by decide) (by decide) hi)
  have hafter : keepAt (fun i => s.afterLines[i]? = some .unchanged) afterLines =
      keepAt (· ∈ (lcsIndices beforeLines afterLines).2) afterLines :=
    keepAt_congr fun i hi => decide_eq_decide.mpr
      (class_unchanged_iff h.after_sublist h.after (by decide) (by decide) hi)
  refine ⟨?_, ?_, ?_, ?_, ?_, ?_, ?_, ?_, ?_⟩
  · rw [hbefore, hafter]
    exact keepAt_lcsIndices beforeLines afterLines
  · rw [hbefore]
    exact lcsIndices_longest beforeLines afterLines
  · rw [hpairs]
    exact paired_pairwise_lt h.before_sublist
  · rw [hpairs]
    exact paired_pairwise_lt h.after_sublist
  · rw [hpairs]
    exact class_modified_iff h.before_sublist h.before (by decide) (by decide)
  · rw [hpairs]
    exact class_modified_iff h.after_sublist h.after (by decide) (by decide)
  · rw [hpairs]
    intro pair hpair
    have hb := (mem_unmatched h.before_sublist (List.mem_map_of_mem hpair)).1
    have ha := (mem_unmatched h.after_sublist (List.mem_map_of_mem hpair)).1
    have hsimilar := of_decide_eq_true (h.similar pair hpair)
    rw [List.getD_eq_getElem _ [] hb, List.getD_eq_getElem _ [] ha] at hsimilar
    exact ⟨_, List.getElem?_eq_getElem hb, _, List.getElem?_eq_getElem ha, hsimilar⟩
  · exact fun i hi => class_other h.before hi
  · exact fun i hi => class_other h.after hi

end Builderbot.DiffViewer
