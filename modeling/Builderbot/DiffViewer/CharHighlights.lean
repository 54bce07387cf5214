import Builderbot.DiffViewer.LcsIndices

/-!
# Character highlights

`computeCharHighlights` of `packages/diff-viewer/src/lib/utils/inlineDiff.ts`. The tokens of a text cover it without
gaps, so the ranges of the tokens outside the common subsequence are the text without the common tokens; merging the
ranges that touch changes nothing of what they cover.

`computeCharHighlights_exact` puts this together: what is left of the two texts without their highlights is the same, and,
unless the texts have too many tokens, is made of a longest common subsequence of them.
-/

namespace Builderbot.DiffViewer

open Lib

open scoped List

/-- The code unit at this offset is in one of the ranges. -/
def covers (ranges : List CharHighlight) (k : ℕ) : Bool := ranges.any fun r => r.start ≤ k ∧ k < r.stop

/-- The text without the ranges. -/
def deleteRanges (ranges : List CharHighlight) (text : JsString) : JsString := keepAt (fun k => !covers ranges k) text

/-- The ranges are in the text, not empty, in order, and at least one code unit apart. -/
structure Placed (text : JsString) (ranges : List CharHighlight) : Prop where
  bounds : ∀ r ∈ ranges, r.start < r.stop ∧ r.stop ≤ text.length
  apart : ranges.Pairwise fun r s => r.stop < s.start

theorem covers_cons (r : CharHighlight) (ranges : List CharHighlight) (k : ℕ) :
    covers (r :: ranges) k = (decide (r.start ≤ k ∧ k < r.stop) || covers ranges k) := rfl

/-- Nothing before the first range is covered. -/
theorem covers_eq_false {ranges : List CharHighlight} {k : ℕ} (h : ∀ r ∈ ranges, k < r.start) : covers ranges k = false := by
  rw [covers, List.any_eq_false]
  intro r hr hcovers
  exact Nat.not_le_of_lt (h r hr) (of_decide_eq_true hcovers).1

/-! ## Merging -/

section Merge

variable {prev : CharHighlight} {ranges : List CharHighlight}

/-- Merging keeps what is covered, if the ranges come in the order of their starts. -/
theorem covers_mergeInto (h : (prev :: ranges).Pairwise (·.start ≤ ·.start)) (k : ℕ) :
    covers (mergeInto prev ranges) k = covers (prev :: ranges) k := by
  induction ranges generalizing prev with
  | nil => rfl
  | cons curr ranges ih =>
    obtain ⟨hprev, hranges⟩ := List.pairwise_cons.mp h
    have hcurr := hprev curr List.mem_cons_self
    rw [mergeInto]
    split
    next htouch =>
      have hmerged : ((⟨prev.start, max prev.stop curr.stop⟩ : CharHighlight) :: ranges).Pairwise (·.start ≤ ·.start) :=
        List.pairwise_cons.mpr
          ⟨fun r hr => hprev r (List.mem_cons_of_mem _ hr), (List.pairwise_cons.mp hranges).2⟩
      rw [ih hmerged, covers_cons, covers_cons, covers_cons, ← Bool.or_assoc, ← Bool.decide_or]
      congr 1
      rw [decide_eq_decide]
      simp only
      omega
    next => rw [covers_cons, covers_cons, ih hranges]

/-- Merged ranges are not empty and have the same bound. -/
theorem bounds_mergeInto {n : ℕ} (h : ∀ r ∈ prev :: ranges, r.start < r.stop ∧ r.stop ≤ n) :
    ∀ r ∈ mergeInto prev ranges, r.start < r.stop ∧ r.stop ≤ n := by
  induction ranges generalizing prev with
  | nil => exact h
  | cons curr ranges ih =>
    obtain ⟨hprev, hranges⟩ := List.forall_mem_cons.mp h
    obtain ⟨hcurr, hrest⟩ := List.forall_mem_cons.mp hranges
    rw [mergeInto]
    split
    · refine ih (List.forall_mem_cons.mpr ⟨?_, hrest⟩)
      simp only
      omega
    · exact List.forall_mem_cons.mpr ⟨hprev, ih hranges⟩

/-- No merged range starts earlier. -/
theorem le_start_of_mem_mergeInto {n : ℕ} (h : ∀ r ∈ prev :: ranges, n ≤ r.start) :
    ∀ r ∈ mergeInto prev ranges, n ≤ r.start := by
  induction ranges generalizing prev with
  | nil => exact h
  | cons curr ranges ih =>
    obtain ⟨hprev, hranges⟩ := List.forall_mem_cons.mp h
    rw [mergeInto]
    split
    · exact ih (List.forall_mem_cons.mpr ⟨hprev, (List.forall_mem_cons.mp hranges).2⟩)
    · exact List.forall_mem_cons.mpr ⟨hprev, ih hranges⟩

/-- Ranges that are not merged are apart. -/
theorem apart_mergeInto (h : (prev :: ranges).Pairwise (·.start ≤ ·.start)) :
    (mergeInto prev ranges).Pairwise fun r s => r.stop < s.start := by
  induction ranges generalizing prev with
  | nil => exact List.pairwise_singleton _ _
  | cons curr ranges ih =>
    obtain ⟨hprev, hranges⟩ := List.pairwise_cons.mp h
    rw [mergeInto]
    split
    · exact ih (List.pairwise_cons.mpr
        ⟨fun r hr => hprev r (List.mem_cons_of_mem _ hr), (List.pairwise_cons.mp hranges).2⟩)
    next hgap =>
      refine List.pairwise_cons.mpr ⟨fun r hr => ?_, ih hranges⟩
      have hstart := le_start_of_mem_mergeInto (n := curr.start)
        (List.forall_mem_cons.mpr ⟨le_rfl, (List.pairwise_cons.mp hranges).1⟩) r hr
      omega

end Merge

theorem covers_mergeHighlights {ranges : List CharHighlight} (h : ranges.Pairwise (·.start ≤ ·.start)) (k : ℕ) :
    covers (mergeHighlights ranges) k = covers ranges k := by
  cases ranges with
  | nil => rfl
  | cons first rest => exact covers_mergeInto h k

theorem placed_mergeHighlights {text : JsString} {ranges : List CharHighlight}
    (hbounds : ∀ r ∈ ranges, r.start < r.stop ∧ r.stop ≤ text.length) (h : ranges.Pairwise (·.start ≤ ·.start)) :
    Placed text (mergeHighlights ranges) := by
  cases ranges with
  | nil => exact ⟨hbounds, List.Pairwise.nil⟩
  | cons first rest => exact ⟨bounds_mergeInto hbounds, apart_mergeInto h⟩

/-! ## Tokens -/

theorem codePoints_flatten (text : JsString) : ((codePoints text).map Prod.snd).flatten = text := by
  induction text using codePoints.induct with
  | case1 => rfl
  | case2 u => rfl
  | case3 u v rest hpair ih =>
    rw [codePoints, if_pos hpair, List.map_cons, List.flatten_cons, ih]
    rfl
  | case4 u v rest hpair ih =>
    rw [codePoints, if_neg hpair, List.map_cons, List.flatten_cons, ih]
    rfl

theorem codePoints_ne_nil (text : JsString) : ∀ p ∈ codePoints text, p.2 ≠ [] := by
  induction text using codePoints.induct with
  | case1 => exact List.forall_mem_nil _
  | case2 u => exact List.forall_mem_singleton.mpr (List.cons_ne_nil _ _)
  | case3 u v rest hpair ih =>
    rw [codePoints, if_pos hpair]
    exact List.forall_mem_cons.mpr ⟨List.cons_ne_nil _ _, ih⟩
  | case4 u v rest hpair ih =>
    rw [codePoints, if_neg hpair]
    exact List.forall_mem_cons.mpr ⟨List.cons_ne_nil _ _, ih⟩

/-- Joining runs loses nothing. -/
theorem joinRuns_flatten (units : List (TokenClass × JsString)) :
    ((joinRuns units).map Prod.snd).flatten = (units.map Prod.snd).flatten := by
  induction units with
  | nil => rfl
  | cons unit rest ih =>
    obtain ⟨c, text⟩ := unit
    rw [joinRuns, List.map_cons, List.flatten_cons, ← ih]
    split
    next h => rw [h]; rfl
    next c' token tokens h =>
      rw [h]
      split
      · simp
      · simp

theorem joinRuns_ne_nil {units : List (TokenClass × JsString)} (h : ∀ unit ∈ units, unit.2 ≠ []) :
    ∀ token ∈ joinRuns units, token.2 ≠ [] := by
  induction units with
  | nil => exact h
  | cons unit rest ih =>
    obtain ⟨c, text⟩ := unit
    obtain ⟨hunit, hrest⟩ := List.forall_mem_cons.mp h
    have ih := ih hrest
    rw [joinRuns]
    split
    · exact List.forall_mem_singleton.mpr hunit
    next c' token tokens hjoin =>
      rw [hjoin] at ih
      obtain ⟨-, htokens⟩ := List.forall_mem_cons.mp ih
      split
      · exact List.forall_mem_cons.mpr ⟨List.append_ne_nil_of_left_ne_nil hunit _, htokens⟩
      · exact List.forall_mem_cons.mpr ⟨hunit, ih⟩

section Unicode

variable (isLetterOrNumber : ℕ → Bool)

/-- The tokens make up the text. -/
theorem splitWords_flatten (text : JsString) : (splitWords isLetterOrNumber text).flatten = text := by
  rw [splitWords, joinRuns_flatten, List.map_map]
  exact codePoints_flatten text

theorem splitWords_ne_nil (text : JsString) : ∀ token ∈ splitWords isLetterOrNumber text, token ≠ [] := by
  intro token htoken
  obtain ⟨run, hrun, rfl⟩ := List.mem_map.mp htoken
  refine joinRuns_ne_nil (fun unit hunit => ?_) run hrun
  obtain ⟨p, hp, rfl⟩ := List.mem_map.mp hunit
  exact codePoints_ne_nil text p hp

end Unicode

/-! ## The ranges of the other tokens -/

section Ranges

variable (matched : List ℕ) {tokens : List JsString}

/-- The ranges are not empty and inside the tokens. -/
theorem bounds_unmatchedRanges (h : ∀ token ∈ tokens, token ≠ []) (i pos : ℕ) :
    ∀ r ∈ unmatchedRanges matched tokens i pos,
      pos ≤ r.start ∧ r.start < r.stop ∧ r.stop ≤ pos + tokens.flatten.length := by
  induction tokens generalizing i pos with
  | nil => exact List.forall_mem_nil _
  | cons token tokens ih =>
    obtain ⟨htoken, htokens⟩ := List.forall_mem_cons.mp h
    have hpos : 0 < token.length := List.length_pos_of_ne_nil htoken
    have hlater : ∀ r ∈ unmatchedRanges matched tokens (i + 1) (pos + token.length),
        pos ≤ r.start ∧ r.start < r.stop ∧ r.stop ≤ pos + (token :: tokens).flatten.length := by
      intro r hr
      obtain ⟨hstart, hne, hstop⟩ := ih htokens (i + 1) (pos + token.length) r hr
      rw [List.flatten_cons, List.length_append]
      omega
    rw [unmatchedRanges]
    split
    · exact hlater
    · refine List.forall_mem_cons.mpr ⟨?_, hlater⟩
      rw [List.flatten_cons, List.length_append]
      simp only
      omega

theorem sorted_unmatchedRanges (h : ∀ token ∈ tokens, token ≠ []) (i pos : ℕ) :
    (unmatchedRanges matched tokens i pos).Pairwise (·.start ≤ ·.start) := by
  induction tokens generalizing i pos with
  | nil => exact List.Pairwise.nil
  | cons token tokens ih =>
    obtain ⟨-, htokens⟩ := List.forall_mem_cons.mp h
    have hlater := ih htokens (i + 1) (pos + token.length)
    rw [unmatchedRanges]
    split
    · exact hlater
    · refine List.pairwise_cons.mpr ⟨fun r hr => ?_, hlater⟩
      have hstart := (bounds_unmatchedRanges matched htokens (i + 1) (pos + token.length) r hr).1
      simp only
      omega

/-- Without the ranges, the matched tokens are left. -/
theorem keepAt_unmatchedRanges (h : ∀ token ∈ tokens, token ≠ []) (i pos : ℕ) :
    keepAt (fun k => !covers (unmatchedRanges matched tokens i pos) (pos + k)) tokens.flatten =
      (keepAt (fun k => i + k ∈ matched) tokens).flatten := by
  induction tokens generalizing i pos with
  | nil => rfl
  | cons token tokens ih =>
    obtain ⟨-, htokens⟩ := List.forall_mem_cons.mp h
    have hlater := ih htokens (i + 1) (pos + token.length)
    -- before the end of this token, no later range covers anything
    have hbefore : ∀ k < token.length,
        covers (unmatchedRanges matched tokens (i + 1) (pos + token.length)) (pos + k) = false := by
      intro k hk
      refine covers_eq_false fun r hr => ?_
      have hstart := (bounds_unmatchedRanges matched htokens (i + 1) (pos + token.length) r hr).1
      omega
    have hshift : (fun k => decide (i + (1 + k) ∈ matched)) = fun k => decide (i + 1 + k ∈ matched) := by
      funext k
      rw [Nat.add_assoc]
    rw [List.flatten_cons, keepAt_append, keepAt_cons, List.flatten_append, hshift, ← hlater, Nat.add_zero, unmatchedRanges]
    by_cases hi : i ∈ matched
    · rw [if_pos hi, if_pos (decide_eq_true hi), keepAt_eq_self fun k hk => by rw [hbefore k hk]; rfl]
      simp only [List.flatten_cons, List.flatten_nil, List.append_nil, Nat.add_assoc]
    · -- the range of the token covers it, and nothing after it
      have htoken : ∀ k < token.length,
          (!covers (⟨pos, pos + token.length⟩ :: unmatchedRanges matched tokens (i + 1) (pos + token.length))
            (pos + k)) = false := by
        intro k hk
        rw [covers_cons, decide_eq_true ⟨Nat.le_add_right pos k, Nat.add_lt_add_left hk pos⟩]
        rfl
      have hafter : ∀ k < tokens.flatten.length,
          (!covers (⟨pos, pos + token.length⟩ :: unmatchedRanges matched tokens (i + 1) (pos + token.length))
              (pos + (token.length + k))) =
            !covers (unmatchedRanges matched tokens (i + 1) (pos + token.length)) (pos + token.length + k) := by
        intro k _
        rw [covers_cons, decide_eq_false (by simp only; omega), Bool.false_or, Nat.add_assoc]
      rw [if_neg hi, if_neg fun hmem => hi (of_decide_eq_true hmem), keepAt_eq_nil htoken, keepAt_congr hafter]
      rfl

end Ranges

/-! ## The highlights -/

section Highlights

variable (isLetterOrNumber : ℕ → Bool)

/-- The merged ranges of the tokens outside `matched`, in the text of the tokens. -/
theorem placed_unmatchedRanges (matched : List ℕ) (text : JsString) :
    Placed text (mergeHighlights (unmatchedRanges matched (splitWords isLetterOrNumber text) 0 0)) := by
  have hne := splitWords_ne_nil isLetterOrNumber text
  refine placed_mergeHighlights (fun r hr => ?_) (sorted_unmatchedRanges matched hne 0 0)
  obtain ⟨-, hlt, hstop⟩ := bounds_unmatchedRanges matched hne 0 0 r hr
  rw [splitWords_flatten, Nat.zero_add] at hstop
  exact ⟨hlt, hstop⟩

theorem deleteRanges_unmatchedRanges (matched : List ℕ) (text : JsString) :
    deleteRanges (mergeHighlights (unmatchedRanges matched (splitWords isLetterOrNumber text) 0 0)) text =
      (keepAt (· ∈ matched) (splitWords isLetterOrNumber text)).flatten := by
  have hne := splitWords_ne_nil isLetterOrNumber text
  have hkeep := keepAt_unmatchedRanges matched hne 0 0
  simp only [Nat.zero_add] at hkeep
  rw [← hkeep, splitWords_flatten, deleteRanges]
  refine keepAt_congr fun k _ => ?_
  rw [covers_mergeHighlights (sorted_unmatchedRanges matched hne 0 0)]

/-- A whole line is one range, if it has anything in it. -/
theorem placed_wholeLine (text : JsString) : Placed text (wholeLine text) := by
  rw [wholeLine]
  split
  next h => exact ⟨List.forall_mem_singleton.mpr ⟨h, le_rfl⟩, List.pairwise_singleton _ _⟩
  next => exact ⟨List.forall_mem_nil _, List.Pairwise.nil⟩

theorem deleteRanges_wholeLine (text : JsString) : deleteRanges (wholeLine text) text = [] := by
  refine keepAt_eq_nil fun k hk => ?_
  rw [wholeLine, if_pos (Nat.zero_lt_of_lt hk), covers_cons, decide_eq_true ⟨Nat.zero_le k, hk⟩]
  rfl

/-- The highlights are ranges of their texts, and without them the texts are equal. With few enough tokens, what is left is a
longest common subsequence of the tokens. -/
theorem computeCharHighlights_exact (before after : JsString) :
    Placed before (computeCharHighlights isLetterOrNumber before after).1 ∧
      Placed after (computeCharHighlights isLetterOrNumber before after).2 ∧
      deleteRanges (computeCharHighlights isLetterOrNumber before after).1 before =
        deleteRanges (computeCharHighlights isLetterOrNumber before after).2 after ∧
      ((splitWords isLetterOrNumber before).length * (splitWords isLetterOrNumber after).length ≤ LCS_BAILOUT_PRODUCT →
        ∃ common, common <+ splitWords isLetterOrNumber before ∧ common <+ splitWords isLetterOrNumber after ∧
          CommonLe (splitWords isLetterOrNumber before) (splitWords isLetterOrNumber after) common.length ∧
          deleteRanges (computeCharHighlights isLetterOrNumber before after).1 before = common.flatten) := by
  rw [computeCharHighlights]
  split
  · rename_i hmany
    refine ⟨placed_wholeLine before, placed_wholeLine after, ?_, fun hfew => absurd hfew hmany.not_ge⟩
    rw [deleteRanges_wholeLine, deleteRanges_wholeLine]
  · have hbefore := deleteRanges_unmatchedRanges isLetterOrNumber (lcsIndices (splitWords isLetterOrNumber before)
      (splitWords isLetterOrNumber after)).1 before
    refine ⟨placed_unmatchedRanges isLetterOrNumber _ before, placed_unmatchedRanges isLetterOrNumber _ after, ?_,
      fun _ => ⟨_, keepAt_sublist _ _, ?_, lcsIndices_longest _ _, hbefore⟩⟩
    · rw [hbefore, deleteRanges_unmatchedRanges, keepAt_lcsIndices]
    · rw [keepAt_lcsIndices]
      exact keepAt_sublist _ _

end Highlights

end Builderbot.DiffViewer
