import Builderbot.Staged.DiffCollect

/-!
# Counted lines and hunk headers

`line_stats_from_patch` of `apps/staged/src-tauri/src/diff_cache.rs` counts the lines of a patch by their first
characters, and skips those that look like the file headers `--- ` and `+++ `. `parse_unified_hunks` of `diff_commands.rs`
reads the counts in the hunk headers of the same patch.

`lineStatsFromPatch_eq_hunks_iff` says for which patches the two agree: a removed line that starts with `-- ` looks like a
file header as well, and so does an added line that starts with `++ `.
-/

namespace Builderbot.Staged

open Builderbot.Lib.Text Builderbot.Git

/-- The lines that the count skips. -/
def IsFileHeader (line : Text) : Prop := ['+', '+', '+', ' '] <+: line ∨ ['-', '-', '-', ' '] <+: line

instance IsFileHeader.decidable (line : Text) : Decidable (IsFileHeader line) := inferInstanceAs (Decidable (_ ∨ _))

/-- The lines with this first character that are counted. -/
def Counted (mark : Char) (line : Text) : Prop := ¬ IsFileHeader line ∧ [mark] <+: line

instance Counted.decidable (mark : Char) (line : Text) : Decidable (Counted mark line) :=
  inferInstanceAs (Decidable (_ ∧ _))

/-! ## Patches as git prints them -/

/-- The lines of the hunk with this first character. -/
def HunkText.marked (mark : Char) (h : HunkText) : ℕ := h.body.countP fun l => l.1.char = mark

/-- The patch of a text file without context. The lines before the hunks are headers, the counts of a hunk are those of
its body, and the hunks lie in two texts whose line numbers are `u32` values. -/
structure GitPatch extends Patch where
  headers : ∀ l ∈ preamble, IsFileHeader l.val ∨ ¬ ['+'] <+: l.val ∧ ¬ ['-'] <+: l.val
  counts : ∀ h ∈ hunks, h.old.lines = h.marked '-' ∧ h.new.lines = h.marked '+'
  beforeLen : ℕ
  afterLen : ℕ
  lens_lt : beforeLen < u32Size ∧ afterLen < u32Size
  fits : FitsFrom beforeLen afterLen (hunks.map HunkText.raw) 0 0

/-- A changed line that looks like a file header. -/
def LooksLikeHeader (l : BodyMark × Line) : Prop :=
  l.1.char = '-' ∧ ['-', '-', ' '] <+: l.2.val ∨ l.1.char = '+' ∧ ['+', '+', ' '] <+: l.2.val

instance LooksLikeHeader.decidable (l : BodyMark × Line) : Decidable (LooksLikeHeader l) :=
  inferInstanceAs (Decidable (_ ∨ _))

/-! ## The count -/

theorem not_counted_of_ne {mark mark' : Char} {line : Text} (h : [mark] <+: line) (hne : mark' ≠ mark) :
    ¬ Counted mark' line := by
  rintro ⟨-, hmark⟩
  obtain ⟨rest, rfl⟩ := h
  exact hne (List.cons_prefix_cons.mp hmark).1

/-- The loop counts, unless a counter overflows. -/
theorem countPatchLines_eq (ls : List Text) {added deleted : ℕ} (hadded : added + ls.countP (Counted '+' ·) < u32Size)
    (hdeleted : deleted + ls.countP (Counted '-' ·) < u32Size) :
    countPatchLines ls added deleted =
      some (added + ls.countP (Counted '+' ·), deleted + ls.countP (Counted '-' ·)) := by
  induction ls generalizing added deleted with
  | nil => rfl
  | cons line ls ih =>
    rw [List.countP_cons] at hadded hdeleted ⊢
    rw [List.countP_cons]
    by_cases hheader : ['+', '+', '+', ' '] <+: line ∨ ['-', '-', '-', ' '] <+: line
    · have hnot : ∀ mark, ¬ Counted mark line := fun _ h => h.1 hheader
      rw [countPatchLines, if_pos hheader, ih (by omega) (by omega)]
      simp only [hnot, decide_false, Bool.false_eq_true, if_false, Nat.add_zero]
    · by_cases hplus : ['+'] <+: line
      · have hcounted : Counted '+' line := ⟨hheader, hplus⟩
        have hnot : ¬ Counted '-' line := not_counted_of_ne hplus (by decide)
        simp only [hcounted, hnot, decide_true, decide_false, Bool.false_eq_true, if_true, if_false] at hadded hdeleted ⊢
        rw [countPatchLines, if_neg hheader, if_pos hplus, addU32_of_lt (by omega)]
        show countPatchLines ls (added + 1) deleted = _
        rw [ih (by omega) (by omega), Nat.add_assoc, Nat.add_comm 1]
        rfl
      · have hnot : ¬ Counted '+' line := fun h => hplus h.2
        by_cases hminus : ['-'] <+: line
        · have hcounted : Counted '-' line := ⟨hheader, hminus⟩
          simp only [hcounted, hnot, decide_true, decide_false, Bool.false_eq_true, if_true, if_false] at hadded hdeleted ⊢
          rw [countPatchLines, if_neg hheader, if_neg hplus, if_pos hminus, addU32_of_lt (by omega)]
          show countPatchLines ls added (deleted + 1) = _
          rw [ih (by omega) (by omega), Nat.add_assoc deleted, Nat.add_comm 1]
          rfl
        · have hnot' : ¬ Counted '-' line := fun h => hminus h.2
          rw [countPatchLines, if_neg hheader, if_neg hplus, if_neg hminus, ih (by omega) (by omega)]
          simp only [hnot, hnot', decide_false, Bool.false_eq_true, if_false, Nat.add_zero]

/-- A dropped carriage return does not change what is counted. -/
theorem counted_stripCr_iff {mark : Char} (hmark : mark ≠ '\r') (line : Text) :
    Counted mark (stripCr line) ↔ Counted mark line := by
  rw [Counted, Counted, IsFileHeader, IsFileHeader, prefix_stripCr_iff (by decide), prefix_stripCr_iff (by decide),
    prefix_stripCr_iff (by simpa using hmark.symm)]

/-- A changed line is counted under its mark, unless it looks like a header. -/
theorem counted_body_iff {mark : Char} (hmark : mark = '+' ∨ mark = '-') (l : BodyMark × Line) :
    Counted mark (l.1.char :: l.2.val) ↔ l.1.char = mark ∧ ¬ LooksLikeHeader l := by
  obtain ⟨char, line⟩ := l
  rw [Counted, IsFileHeader, LooksLikeHeader, List.cons_prefix_cons, List.cons_prefix_cons, List.cons_prefix_cons]
  rcases hmark with rfl | rfl
  · cases char <;> simp [BodyMark.char]
  · cases char <;> simp [BodyMark.char]

theorem not_counted_header (h : HunkText) {mark : Char} (hmark : mark ≠ '@') : ¬ Counted mark h.header := by
  rintro ⟨-, hpre⟩
  exact hmark (List.cons_prefix_cons.mp hpre).1

namespace GitPatch

variable (p : GitPatch)

/-- The lines of all bodies. -/
def body : List (BodyMark × Line) := p.hunks.flatMap (·.body)

theorem countP_lines {mark : Char} (hmark : mark = '+' ∨ mark = '-') :
    (lines p.render).countP (Counted mark ·) = p.body.countP fun l => l.1.char = mark ∧ ¬ LooksLikeHeader l := by
  have hcr : mark ≠ '\r' := by
    rcases hmark with rfl | rfl <;> decide
  have hat : mark ≠ '@' := by
    rcases hmark with rfl | rfl <;> decide
  have hpreamble : (p.preamble.map (·.val)).countP (Counted mark ·) = 0 := by
    rw [List.countP_eq_zero]
    intro line hline hcounted
    obtain ⟨l, hl, rfl⟩ := List.mem_map.mp hline
    obtain ⟨hnot, hpre⟩ := of_decide_eq_true hcounted
    rcases p.headers l hl with hheader | ⟨hplus, hminus⟩
    · exact hnot hheader
    · rcases hmark with rfl | rfl
      · exact hplus hpre
      · exact hminus hpre
  have hhunk : ∀ h : HunkText, h.lines.countP (Counted mark ·) =
      h.body.countP fun l => l.1.char = mark ∧ ¬ LooksLikeHeader l := by
    intro h
    rw [HunkText.lines, List.countP_cons, if_neg fun hc => not_counted_header h hat (of_decide_eq_true hc), List.countP_map]
    exact List.countP_congr fun l _ => by simp [counted_body_iff hmark l]
  have hstrip : (fun line : Text => decide (Counted mark (stripCr line))) = fun line => decide (Counted mark line) := by
    funext line
    exact decide_eq_decide.mpr (counted_stripCr_iff hcr line)
  rw [lines_render, List.countP_map]
  show (p.preamble.map (·.val) ++ p.hunks.flatMap HunkText.lines).countP
    (fun line => decide (Counted mark (stripCr line))) = _
  rw [hstrip, List.countP_append, hpreamble, Nat.zero_add, List.countP_flatMap, body, List.countP_flatMap]
  exact congrArg List.sum (List.map_congr_left fun h _ => hhunk h)

/-- The lines of a body with a mark, as the headers count them. -/
theorem sum_marked (mark : Char) : (p.hunks.map (·.marked mark)).sum = p.body.countP (·.1.char = mark) := by
  rw [body, List.countP_flatMap]
  rfl

/-- The hunks have room in the texts. -/
theorem sum_le_of_fitsFrom {beforeLen afterLen : ℕ} {hunks : List RawHunk} {b a : ℕ}
    (h : FitsFrom beforeLen afterLen hunks b a) :
    (hunks.map (·.oldLines)).sum ≤ beforeLen - b ∧ (hunks.map (·.newLines)).sum ≤ afterLen - a := by
  induction hunks generalizing b a with
  | nil => exact ⟨Nat.zero_le _, Nat.zero_le _⟩
  | cons hunk hunks ih =>
    obtain ⟨q, r, -, hge, hle, hrest⟩ := h
    obtain ⟨hold, hnew⟩ := ih hrest
    rw [List.map_cons, List.map_cons, List.sum_cons, List.sum_cons]
    omega

theorem sum_lines_le :
    p.body.countP (·.1.char = '-') ≤ p.beforeLen ∧ p.body.countP (·.1.char = '+') ≤ p.afterLen := by
  obtain ⟨hold, hnew⟩ := sum_le_of_fitsFrom p.fits
  have holdCounts : (p.hunks.map HunkText.raw).map (·.oldLines) = p.hunks.map (·.marked '-') := by
    rw [List.map_map]
    exact List.map_congr_left fun h hh => (p.counts h hh).1
  have hnewCounts : (p.hunks.map HunkText.raw).map (·.newLines) = p.hunks.map (·.marked '+') := by
    rw [List.map_map]
    exact List.map_congr_left fun h hh => (p.counts h hh).2
  rw [holdCounts, p.sum_marked] at hold
  rw [hnewCounts, p.sum_marked] at hnew
  exact ⟨hold, hnew⟩

theorem inRange : ∀ h ∈ p.rawHunks, RawHunk.InRange h := by
  intro h hh
  obtain ⟨⟨hold, hnew⟩, holdEnd, hnewEnd⟩ := bounds_of_fitsFrom p.fits h hh
  obtain ⟨hbefore, hafter⟩ := p.lens_lt
  exact ⟨⟨by omega, by omega⟩, by omega, by omega⟩

/-- The counts that the hunks give are those of the marks. -/
theorem sum_parseUnifiedHunks :
    ((parseUnifiedHunks p.render).map (·.newLines)).sum = p.body.countP (·.1.char = '+') ∧
      ((parseUnifiedHunks p.render).map (·.oldLines)).sum = p.body.countP (·.1.char = '-') := by
  rw [parseUnifiedHunks_render p.toPatch p.inRange, ← p.sum_marked, ← p.sum_marked, List.map_map, List.map_map,
    Patch.rawHunks, List.map_map, List.map_map]
  exact ⟨congrArg List.sum (List.map_congr_left fun h hh => (p.counts h hh).2),
    congrArg List.sum (List.map_congr_left fun h hh => (p.counts h hh).1)⟩

end GitPatch

/-- Nothing is lost to a second condition just if it always holds. -/
theorem countP_and_eq_iff {α : Type*} (P Q : α → Prop) [DecidablePred P] [DecidablePred Q] (xs : List α) :
    (xs.countP fun x => P x ∧ Q x) = xs.countP (P ·) ↔ ∀ x ∈ xs, P x → Q x := by
  have hfilter : (xs.countP fun x => P x ∧ Q x) = (xs.filter (P ·)).countP (Q ·) := by
    rw [List.countP_filter]
    exact List.countP_congr fun x _ => by simp [and_comm]
  rw [hfilter, List.countP_eq_length_filter (p := (P ·)), List.countP_eq_length]
  simp only [List.mem_filter, decide_eq_true_eq, and_imp]

/-- The counted lines are those of the hunk headers just if no changed line looks like a file header. -/
theorem lineStatsFromPatch_eq_hunks_iff (p : GitPatch) {before after : Option File}
    (hbefore : supportsLineStats before = true) (hafter : supportsLineStats after = true) :
    lineStatsFromPatch p.render before after =
        some (some ((parseUnifiedHunks p.render).map (·.newLines)).sum,
          some ((parseUnifiedHunks p.render).map (·.oldLines)).sum) ↔
      ∀ h ∈ p.hunks, ∀ l ∈ h.body, ¬ LooksLikeHeader l := by
  obtain ⟨hnew, hold⟩ := p.sum_parseUnifiedHunks
  obtain ⟨hdeleted, hadded⟩ := p.sum_lines_le
  obtain ⟨hbeforeLen, hafterLen⟩ := p.lens_lt
  have hle : ∀ mark : Char, (p.body.countP fun l => l.1.char = mark ∧ ¬ LooksLikeHeader l) ≤
      p.body.countP (·.1.char = mark) := fun mark =>
    List.countP_mono_left fun l _ hl => decide_eq_true (of_decide_eq_true hl).1
  have hcount := @countPatchLines_eq (lines p.render) 0 0
  rw [p.countP_lines (Or.inl rfl), p.countP_lines (Or.inr rfl), Nat.zero_add, Nat.zero_add] at hcount
  have hstats := hcount (Nat.lt_of_le_of_lt (hle '+') (by omega)) (Nat.lt_of_le_of_lt (hle '-') (by omega))
  rw [lineStatsFromPatch, hbefore, hafter, if_neg (by decide), hstats, hnew, hold, Option.map_some, Option.some_inj,
    Prod.mk.injEq, Option.some_inj, Option.some_inj, countP_and_eq_iff, countP_and_eq_iff]
  constructor
  · rintro ⟨hplus, hminus⟩ h hh l hl hlooks
    have hmem : l ∈ p.body := List.mem_flatMap.mpr ⟨h, hh, hl⟩
    rcases hlooks with hlooks | hlooks
    · exact hminus l hmem hlooks.1 (Or.inl hlooks)
    · exact hplus l hmem hlooks.1 (Or.inr hlooks)
  · intro h
    have hall : ∀ l ∈ p.body, ¬ LooksLikeHeader l := by
      intro l hl
      obtain ⟨hunk, hhunk, hmem⟩ := List.mem_flatMap.mp hl
      exact h hunk hhunk l hmem
    exact ⟨fun l hl _ => hall l hl, fun l hl _ => hall l hl⟩

/-- A changed line. -/
def changedLine : GitPatch where
  preamble := [⟨"diff --git a/f b/f".toList, by decide⟩, ⟨"--- a/f".toList, by decide⟩, ⟨"+++ b/f".toList, by decide⟩]
  preamble_plain := by decide
  hunks := [⟨⟨1, 1, true, by decide⟩, ⟨1, 1, true, by decide⟩, ⟨[], newline_notMem_nil⟩,
    [(.removed, ⟨"old".toList, by decide⟩), (.added, ⟨"new".toList, by decide⟩)]⟩]
  headers := by decide
  counts := by decide
  beforeLen := 1
  afterLen := 1
  lens_lt := by decide
  fits := ⟨0, 0, by decide, by decide, by decide, trivial⟩

theorem lineStatsFromPatch_eq_hunks_iff_changedLine :
    lineStatsFromPatch changedLine.render (textFile 1) (textFile 1) =
      some (some ((parseUnifiedHunks changedLine.render).map (·.newLines)).sum,
        some ((parseUnifiedHunks changedLine.render).map (·.oldLines)).sum) :=
  (lineStatsFromPatch_eq_hunks_iff changedLine rfl rfl).mpr (by decide)

/-- The removed line `-- x`, a comment in SQL. -/
def removedComment : GitPatch where
  preamble := [⟨"diff --git a/f b/f".toList, by decide⟩, ⟨"--- a/f".toList, by decide⟩, ⟨"+++ b/f".toList, by decide⟩]
  preamble_plain := by decide
  hunks := [⟨⟨1, 1, true, by decide⟩, .written 0 0, ⟨[], newline_notMem_nil⟩,
    [(.removed, ⟨"-- x".toList, by decide⟩)]⟩]
  headers := by decide
  counts := by decide
  beforeLen := 1
  afterLen := 0
  lens_lt := by decide
  fits := ⟨0, 0, by decide, by decide, by decide, trivial⟩

/-- The header counts one removed line, and none is counted. -/
theorem lineStatsFromPatch_ne_hunks :
    removedComment.render = "diff --git a/f b/f\n--- a/f\n+++ b/f\n@@ -1 +0,0 @@\n--- x\n".toList ∧
      lineStatsFromPatch removedComment.render (textFile 1) (textFile 0) = some (some 0, some 0) ∧
      parseUnifiedHunks removedComment.render = [⟨0, 1, 0, 0⟩] ∧
      lineStatsFromPatch removedComment.render (textFile 1) (textFile 0) ≠
        some (some ((parseUnifiedHunks removedComment.render).map (·.newLines)).sum,
          some ((parseUnifiedHunks removedComment.render).map (·.oldLines)).sum) := by
  refine ⟨by decide, by decide, by decide, by decide⟩

end Builderbot.Staged
