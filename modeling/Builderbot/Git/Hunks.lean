import Builderbot.Git.Types
import Builderbot.Lib.EditScript

/-!
# Alignments from libgit2 hunks

The local diff path of `crates/git-diff/src/diff.rs`: the hunk callback of `get_hunks_libgit2` turns
git's numbering into zero-based positions, and `compute_alignments_from_hunks` fills the gaps
between the hunks with unchanged regions.

`alignLoop_changes` is the loop invariant. It relates the two running positions to the part of the
edit script still to come, through the lines kept since the last hunk. From it,
`alignments_tile_both_files` says that the alignments cover both files exactly once.
-/

namespace Builderbot.Git

open Builderbot.Lib Builderbot.Lib.Text

/-- A hunk header as git reports it: one-based starts, except that a side with no lines reports the
line after which the change happens. -/
structure RawHunk where
  oldStart : ℕ
  oldLines : ℕ
  newStart : ℕ
  newLines : ℕ
deriving DecidableEq, Repr

/-- A hunk after conversion to zero-based positions. -/
structure Hunk where
  oldStart : ℕ
  oldLines : ℕ
  newStart : ℕ
  newLines : ℕ
deriving DecidableEq, Repr

/-- The start conversion in the hunk callback of `get_hunks_libgit2`, the same on both sides. -/
def callbackStart (start lines : ℕ) : ℕ :=
  if start = 0 then 0
  else if lines = 0 then start
  else start - 1

/-- The hunk callback of `get_hunks_libgit2`. -/
def hunkCallback (h : RawHunk) : Hunk :=
  ⟨callbackStart h.oldStart h.oldLines, h.oldLines, callbackStart h.newStart h.newLines, h.newLines⟩

/-- `a - b` on `u32`; `none` when it underflows. -/
def subU32 (a b : ℕ) : Option ℕ := if b ≤ a then some (a - b) else none

/-- `a + b` on `u32`; `none` when it overflows. -/
def addU32 (a b : ℕ) : Option ℕ := if a + b < u32Size then some (a + b) else none

/-- The length of the text lines of a file, cast with `as u32`. -/
def fileLen (f : Option File) : ℕ := lineCount f % u32Size

/-- The unchanged region before a hunk. The gap is measured on both sides before it is pushed. -/
def gapBefore (h : Hunk) (beforePos afterPos : ℕ) : Option (List Alignment) :=
  if beforePos < h.oldStart ∨ afterPos < h.newStart then do
    let beforeGap ← subU32 h.oldStart beforePos
    let afterGap ← subU32 h.newStart afterPos
    if 0 < beforeGap ∨ 0 < afterGap then
      some [⟨⟨beforePos, h.oldStart⟩, ⟨afterPos, h.newStart⟩, false⟩]
    else some []
  else some []

/-- The unchanged region after the last hunk. -/
def trailing (beforeLen afterLen beforePos afterPos : ℕ) : List Alignment :=
  if beforePos < beforeLen ∨ afterPos < afterLen then
    [⟨⟨beforePos, beforeLen⟩, ⟨afterPos, afterLen⟩, false⟩]
  else []

/-- The loop of `compute_alignments_from_hunks`, followed by the region after the last hunk. The
result is `none` when an arithmetic operation leaves the range of `u32`. -/
def alignLoop (beforeLen afterLen : ℕ) : List Hunk → ℕ → ℕ → Option (List Alignment)
  | [], beforePos, afterPos => some (trailing beforeLen afterLen beforePos afterPos)
  | h :: hs, beforePos, afterPos => do
      let gap ← gapBefore h beforePos afterPos
      let hunkBeforeEnd ← addU32 h.oldStart h.oldLines
      let hunkAfterEnd ← addU32 h.newStart h.newLines
      let rest ← alignLoop beforeLen afterLen hs hunkBeforeEnd hunkAfterEnd
      some (gap ++ ⟨⟨h.oldStart, hunkBeforeEnd⟩, ⟨h.newStart, hunkAfterEnd⟩, true⟩ :: rest)

/-- The alignments of files without hunks: all added, all deleted, or no change. -/
def alignWithoutHunks (beforeLen afterLen : ℕ) : List Alignment :=
  if beforeLen = 0 then [⟨⟨0, 0⟩, ⟨0, afterLen⟩, true⟩]
  else if afterLen = 0 then [⟨⟨0, beforeLen⟩, ⟨0, 0⟩, true⟩]
  else [⟨⟨0, beforeLen⟩, ⟨0, afterLen⟩, false⟩]

/-- `compute_alignments_from_hunks`. -/
def computeAlignmentsFromHunks (hunks : List Hunk) (before after : Option File) :
    Option (List Alignment) :=
  if fileLen before = 0 ∧ fileLen after = 0 then some []
  else if hunks = [] then some (alignWithoutHunks (fileLen before) (fileLen after))
  else alignLoop (fileLen before) (fileLen after) hunks 0 0

/-! ## Arithmetic within range -/

variable {b a : ℕ}

theorem subU32_of_le (h : b ≤ a) : subU32 a b = some (a - b) := if_pos h

theorem addU32_of_lt (h : a + b < u32Size) : addU32 a b = some (a + b) := if_pos h

theorem fileLen_of_lt {f : Option File} (h : lineCount f < u32Size) : fileLen f = lineCount f :=
  Nat.mod_eq_of_lt h

/-- The gap the loop pushes before a hunk that lies at or after both running positions. -/
def gapList (h : Hunk) (b a : ℕ) : List Alignment :=
  if b < h.oldStart ∨ a < h.newStart then [⟨⟨b, h.oldStart⟩, ⟨a, h.newStart⟩, false⟩] else []

/-- Neither subtraction underflows for such a hunk, and the second test of the gap changes
nothing. -/
theorem gapBefore_of_le {h : Hunk} (hb : b ≤ h.oldStart) (ha : a ≤ h.newStart) :
    gapBefore h b a = some (gapList h b a) := by
  simp only [gapBefore, gapList]
  split
  · rename_i hlt
    rw [subU32_of_le hb, subU32_of_le ha]
    have hpos : 0 < h.oldStart - b ∨ 0 < h.newStart - a := by omega
    simp only [Option.bind_eq_bind, Option.bind_some, if_pos hpos]
  · rfl

variable {hs : List Hunk}

/-- One round of the loop for a hunk in range. -/
theorem alignLoop_cons {bl al : ℕ} {h : Hunk} {rest : List Alignment}
    (hb : b ≤ h.oldStart) (ha : a ≤ h.newStart)
    (hbe : h.oldStart + h.oldLines < u32Size) (hae : h.newStart + h.newLines < u32Size)
    (hrest : alignLoop bl al hs (h.oldStart + h.oldLines) (h.newStart + h.newLines) = some rest) :
    alignLoop bl al (h :: hs) b a =
      some (gapList h b a ++ ⟨⟨h.oldStart, h.oldStart + h.oldLines⟩,
        ⟨h.newStart, h.newStart + h.newLines⟩, true⟩ :: rest) := by
  simp only [alignLoop, gapBefore_of_le hb ha, addU32_of_lt hbe, addU32_of_lt hae, hrest,
    Option.bind_eq_bind, Option.bind_some]

/-- The alignments the loop pushes when every operation stays in range: before each hunk its gap,
then the hunk itself. -/
def assemble (beforeLen afterLen : ℕ) : List Hunk → ℕ → ℕ → List Alignment
  | [], b, a => trailing beforeLen afterLen b a
  | h :: hs, b, a =>
    gapList h b a ++ ⟨⟨h.oldStart, h.oldStart + h.oldLines⟩,
      ⟨h.newStart, h.newStart + h.newLines⟩, true⟩ ::
        assemble beforeLen afterLen hs (h.oldStart + h.oldLines) (h.newStart + h.newLines)

/-- Each hunk lies at or after the end of the one before it, and ends inside both files. -/
def InOrder (beforeLen afterLen : ℕ) : List Hunk → ℕ → ℕ → Prop
  | [], _, _ => True
  | h :: hs, b, a =>
    (b ≤ h.oldStart ∧ a ≤ h.newStart) ∧
      (h.oldStart + h.oldLines ≤ beforeLen ∧ h.newStart + h.newLines ≤ afterLen) ∧
      InOrder beforeLen afterLen hs (h.oldStart + h.oldLines) (h.newStart + h.newLines)

/-- The loop assembles the alignments of hunks in order without leaving the range of `u32`. -/
theorem alignLoop_eq_assemble {bl al : ℕ} (hbl : bl < u32Size) (hal : al < u32Size)
    (h : InOrder bl al hs b a) :
    alignLoop bl al hs b a = some (assemble bl al hs b a) := by
  induction hs generalizing b a with
  | nil => rfl
  | cons x xs ih =>
    obtain ⟨⟨hb, ha⟩, ⟨hbe, hae⟩, htail⟩ := h
    exact alignLoop_cons hb ha (by omega) (by omega) (ih htail)

/-- A changed alignment read as the hunk it was pushed for. -/
def Alignment.toHunk (x : Alignment) : Hunk :=
  ⟨x.before.start, x.before.stop - x.before.start, x.after.start, x.after.stop - x.after.start⟩

/-- The changed alignments are the hunks in order. -/
theorem assemble_changed (bl al : ℕ) (hs : List Hunk) (b a : ℕ) :
    ((assemble bl al hs b a).filter (·.changed)).map Alignment.toHunk = hs := by
  induction hs generalizing b a with
  | nil =>
    simp only [assemble, trailing]
    split <;> simp
  | cons x xs ih =>
    have hgap : (gapList x b a).filter (·.changed) = [] := by
      simp only [gapList]
      split <;> simp
    simp [assemble, hgap, ih, Alignment.toHunk]

/-! ## Git's numbering of a block of change -/

/-- The start git reports for a block at a zero-based position. -/
def rawStart (pos len : ℕ) : ℕ := if len = 0 then pos else pos + 1

/-- The hunk header git reports for a block of change. -/
def RawHunk.ofChange (c : Change) : RawHunk :=
  ⟨rawStart c.oldPos c.oldLen, c.oldLen, rawStart c.newPos c.newLen, c.newLen⟩

/-- The raw hunks, without context, of an edit script. -/
def rawHunks (es : List (Edit Text)) : List RawHunk := (changes es).map RawHunk.ofChange

/-- A block of change as a hunk. -/
def Hunk.ofChange (c : Change) : Hunk := ⟨c.oldPos, c.oldLen, c.newPos, c.newLen⟩

/-- The callback undoes git's numbering on one side. -/
theorem callbackStart_rawStart (pos len : ℕ) : callbackStart (rawStart pos len) len = pos := by
  by_cases hlen : len = 0
  · simp only [rawStart, callbackStart, if_pos hlen]
    split <;> omega
  · simp [rawStart, callbackStart, hlen]

/-- The callback recovers the block of change. -/
theorem hunkCallback_ofChange (c : Change) : hunkCallback (RawHunk.ofChange c) = Hunk.ofChange c := by
  simp only [hunkCallback, RawHunk.ofChange, Hunk.ofChange, callbackStart_rawStart]

/-! ## Tilings of two files -/

/-- The lines of a span. -/
def slice (ls : List Text) (s : Span) : List Text := (ls.drop s.start).take (s.stop - s.start)

/-- The alignments are contiguous on both sides: they start at `b` and `a`, each one starts where
the one before it ended, and the last one ends at `beforeLen` and `afterLen`. -/
def Tiles (beforeLen afterLen : ℕ) : ℕ → ℕ → List Alignment → Prop
  | b, a, [] => b = beforeLen ∧ a = afterLen
  | b, a, x :: xs =>
    (x.before.start = b ∧ x.after.start = a) ∧
      (x.before.start ≤ x.before.stop ∧ x.after.start ≤ x.after.stop) ∧
      Tiles beforeLen afterLen x.before.stop x.after.stop xs

/-- What the alignments of the lines `L` and `M` from the positions `b` and `a` on must be: a tiling
whose changed regions are the hunks in order and whose unchanged regions hold equal lines. -/
structure Covering (L M : List Text) (hunks : List Hunk) (b a : ℕ) (as : List Alignment) :
    Prop where
  tiles : Tiles L.length M.length b a as
  changed : (as.filter (·.changed)).map Alignment.toHunk = hunks
  unchanged : ∀ x ∈ as, x.changed = false →
    x.before.stop - x.before.start = x.after.stop - x.after.start ∧
      slice L x.before = slice M x.after

variable {L K R : List Text}

/-- The lines after a position start with the lines they are known to start with. -/
theorem slice_of_drop_eq (h : L.drop b = K ++ R) : slice L ⟨b, b + K.length⟩ = K := by
  simp [slice, h]

theorem length_of_drop_eq (h : L.drop b = R) (hb : b ≤ L.length) : L.length = b + R.length := by
  have hlen := congrArg List.length h
  rw [List.length_drop] at hlen
  omega

/-- Dropping the lines that are known to come next. -/
theorem drop_add_of_drop_eq (h : L.drop b = K ++ R) : L.drop (b + K.length) = R := by
  rw [← List.drop_drop, h, List.drop_left]

variable {M : List Text}

/-- With no hunk left, the region after the last hunk covers the kept lines that remain. -/
theorem covering_trailing (hL : L.drop b = K) (hM : M.drop a = K) (hb : b ≤ L.length) (ha : a ≤ M.length) :
    Covering L M [] b a (trailing L.length M.length b a) := by
  have hlenL := length_of_drop_eq hL hb
  have hlenM := length_of_drop_eq hM ha
  have hsL : slice L ⟨b, L.length⟩ = K := by
    rw [hlenL]; exact slice_of_drop_eq (R := []) (by simpa using hL)
  have hsM : slice M ⟨a, M.length⟩ = K := by
    rw [hlenM]; exact slice_of_drop_eq (R := []) (by simpa using hM)
  unfold trailing
  split
  · refine ⟨?_, rfl, ?_⟩
    · simp only [Tiles, and_self, true_and, and_true]
      exact ⟨hb, ha⟩
    · intro x hx _
      rw [List.mem_singleton] at hx
      subst hx
      exact ⟨by simp only; omega, by rw [hsL, hsM]⟩
  · exact ⟨⟨by omega, by omega⟩, rfl, by simp⟩

/-- One hunk of the loop: the kept lines before it become its gap, and what the loop produces from
the end of the hunk on completes the covering. -/
theorem covering_step {L' M' : List Text} {dels inss : ℕ} (hL : L.drop b = K ++ L') (hM : M.drop a = K ++ M')
    (hbe : b + K.length + dels < u32Size) (hae : a + K.length + inss < u32Size)
    (hrest : ∃ as, alignLoop L.length M.length hs (b + K.length + dels) (a + K.length + inss)
        = some as ∧ Covering L M hs (b + K.length + dels) (a + K.length + inss) as) :
    ∃ as, alignLoop L.length M.length (⟨b + K.length, dels, a + K.length, inss⟩ :: hs) b a
        = some as ∧
      Covering L M (⟨b + K.length, dels, a + K.length, inss⟩ :: hs) b a as := by
  obtain ⟨rest, hloop, hcov⟩ := hrest
  refine ⟨_, alignLoop_cons (Nat.le_add_right _ _) (Nat.le_add_right _ _) hbe hae hloop, ?_⟩
  simp only [gapList]
  have hself : Alignment.toHunk ⟨⟨b + K.length, b + K.length + dels⟩,
      ⟨a + K.length, a + K.length + inss⟩, true⟩ = ⟨b + K.length, dels, a + K.length, inss⟩ := by
    simp [Alignment.toHunk]
  by_cases hK : K.length = 0
  · -- the hunk starts where the previous one ended
    simp only [hK, Nat.add_zero, Nat.lt_irrefl, or_self, if_false, List.nil_append] at hself hcov ⊢
    refine ⟨⟨⟨rfl, rfl⟩, ⟨Nat.le_add_right _ _, Nat.le_add_right _ _⟩, hcov.tiles⟩, ?_, ?_⟩
    · simp [hself, hcov.changed]
    · intro x hx hch
      rcases List.mem_cons.mp hx with rfl | hx
      · exact absurd hch (by simp)
      · exact hcov.unchanged x hx hch
  · have hlt : b < b + K.length ∨ a < a + K.length := by omega
    rw [if_pos hlt]
    refine ⟨⟨⟨rfl, rfl⟩, ⟨Nat.le_add_right _ _, Nat.le_add_right _ _⟩, ⟨rfl, rfl⟩,
      ⟨Nat.le_add_right _ _, Nat.le_add_right _ _⟩, hcov.tiles⟩, ?_, ?_⟩
    · simp [hself, hcov.changed]
    · intro x hx hch
      simp only [List.singleton_append, List.mem_cons] at hx
      rcases hx with rfl | rfl | hx
      · exact ⟨by simp only; omega, by rw [slice_of_drop_eq hL, slice_of_drop_eq hM]⟩
      · exact absurd hch (by simp)
      · exact hcov.unchanged x hx hch

/-- The loop invariant. At positions `b` and `a` the lines `K` have been kept since the last hunk,
and the open block has deleted `D` and inserted `I`; the loop then covers the rest of both files. -/
theorem alignLoop_changes (hL : L.length < u32Size) (hM : M.length < u32Size)
    (es : List (Edit Text)) (b a : ℕ) (K D I : List Text)
    (hb : b ≤ L.length) (ha : a ≤ M.length)
    (hLd : L.drop b = K ++ (D ++ Edit.source es)) (hMd : M.drop a = K ++ (I ++ Edit.target es)) :
    let hunks := (changesFrom (b + K.length) (a + K.length) D.length I.length es).map Hunk.ofChange
    ∃ as, alignLoop L.length M.length hunks b a = some as ∧ Covering L M hunks b a as := by
  have hlenL := length_of_drop_eq hLd hb
  have hlenM := length_of_drop_eq hMd ha
  simp only [List.length_append] at hlenL hlenM
  induction es generalizing b a K D I with
  | nil =>
    simp only [Edit.source, Edit.target, List.append_nil] at hLd hMd
    simp only [changesFrom]
    by_cases hopen : D.length = 0 ∧ I.length = 0
    · have hD : D = [] := List.length_eq_zero_iff.mp hopen.1
      have hI : I = [] := List.length_eq_zero_iff.mp hopen.2
      subst hD hI
      simp only [List.length_nil, Change.flush_zero, List.map_nil, alignLoop]
      exact ⟨_, rfl, covering_trailing (by simpa using hLd) (by simpa using hMd) hb ha⟩
    · rw [Change.flush_of_ne hopen]
      simp only [List.map_cons, List.map_nil, Hunk.ofChange]
      refine covering_step hLd hMd (by omega) (by omega) ⟨_, rfl, ?_⟩
      have hLe : L.drop (b + K.length + D.length) = [] :=
        drop_add_of_drop_eq (by rw [drop_add_of_drop_eq hLd, List.append_nil])
      have hMe : M.drop (a + K.length + I.length) = [] :=
        drop_add_of_drop_eq (by rw [drop_add_of_drop_eq hMd, List.append_nil])
      exact covering_trailing hLe hMe (by omega) (by omega)
  | cons e es ih =>
    cases e with
    | keep x =>
      simp only [Edit.source, Edit.target] at hLd hMd hlenL hlenM
      simp only [changesFrom]
      by_cases hopen : D.length = 0 ∧ I.length = 0
      · -- nothing is open: the kept line joins the kept run
        have hD : D = [] := List.length_eq_zero_iff.mp hopen.1
        have hI : I = [] := List.length_eq_zero_iff.mp hopen.2
        subst hD hI
        simp only [List.length_nil, Change.flush_zero, List.nil_append, Nat.add_zero]
        have key := ih b a (K ++ [x]) [] [] hb ha (by simpa using hLd) (by simpa using hMd)
          (by simp at hlenL ⊢; omega) (by simp at hlenM ⊢; omega)
        simpa only [List.length_append, List.length_singleton, List.length_nil,
          ← Nat.add_assoc] using key
      · -- the open block is flushed as a hunk, and the kept line starts a new run
        rw [Change.flush_of_ne hopen]
        simp only [List.singleton_append, List.map_cons, Hunk.ofChange]
        have hLe : L.drop (b + K.length + D.length) = x :: Edit.source es :=
          drop_add_of_drop_eq (drop_add_of_drop_eq hLd)
        have hMe : M.drop (a + K.length + I.length) = x :: Edit.target es :=
          drop_add_of_drop_eq (drop_add_of_drop_eq hMd)
        refine covering_step hLd hMd (by omega) (by omega) ?_
        have key := ih (b + K.length + D.length) (a + K.length + I.length) [x] [] []
          (by omega) (by omega) (by simpa using hLe) (by simpa using hMe)
          (by simp at hlenL ⊢; omega) (by simp at hlenM ⊢; omega)
        simpa using key
    | delete x =>
      -- a deleted or inserted line joins the open block
      simp only [Edit.source, Edit.target] at hLd hMd hlenL hlenM
      have key := ih b a K (D ++ [x]) I hb ha (by simpa using hLd) hMd
        (by simp at hlenL ⊢; omega) hlenM
      simpa only [changesFrom, List.length_append, List.length_singleton] using key
    | insert x =>
      simp only [Edit.source, Edit.target] at hLd hMd hlenL hlenM
      have key := ih b a K D (I ++ [x]) hb ha hLd (by simpa using hMd)
        hlenL (by simp at hlenM ⊢; omega)
      simpa only [changesFrom, List.length_append, List.length_singleton] using key

/-- A script without change keeps every line. -/
theorem source_eq_target_of_changesFrom_nil {es : List (Edit Text)} {bp ap dels inss : ℕ}
    (h : changesFrom bp ap dels inss es = []) :
    (dels = 0 ∧ inss = 0) ∧ Edit.source es = Edit.target es := by
  induction es generalizing bp ap dels inss with
  | nil =>
    refine ⟨?_, rfl⟩
    by_contra hopen
    rw [changesFrom, Change.flush_of_ne hopen] at h
    exact absurd h (by simp)
  | cons e es ih =>
    cases e with
    | keep x =>
      simp only [changesFrom, List.append_eq_nil_iff] at h
      refine ⟨?_, congrArg (x :: ·) (ih h.2).2⟩
      by_contra hopen
      rw [Change.flush_of_ne hopen] at h
      exact absurd h.1 (by simp)
    | delete x => exact absurd (ih h).1.1 (by omega)
    | insert x => exact absurd (ih h).1.2 (by omega)

/-- **The alignments tile both files.** For every edit script between two text files, the raw hunks
of the script, converted by the hunk callback, are turned into alignments without any `u32`
operation leaving its range, and the alignments cover both files from start to end: the changed ones
are the hunks in order, and each unchanged one holds equal lines on both sides.

Line numbers are `u32` values, in git's hunks as in `Span`, so the two files have fewer than `2 ^ 32`
lines. -/
theorem alignments_tile_both_files (es : List (Edit Text)) (beforePath afterPath : Text)
    (hbefore : (Edit.source es).length < u32Size) (hafter : (Edit.target es).length < u32Size) :
    ∃ as, computeAlignmentsFromHunks ((rawHunks es).map hunkCallback)
        (some ⟨beforePath, .text (Edit.source es)⟩) (some ⟨afterPath, .text (Edit.target es)⟩)
          = some as ∧
      Covering (Edit.source es) (Edit.target es) ((rawHunks es).map hunkCallback) 0 0 as := by
  have hhunks : (rawHunks es).map hunkCallback = (changes es).map Hunk.ofChange := by
    simp only [rawHunks, List.map_map]
    exact List.map_congr_left fun c _ => hunkCallback_ofChange c
  have hlenB : fileLen (some ⟨beforePath, .text (Edit.source es)⟩) = (Edit.source es).length :=
    fileLen_of_lt hbefore
  have hlenA : fileLen (some ⟨afterPath, .text (Edit.target es)⟩) = (Edit.target es).length :=
    fileLen_of_lt hafter
  obtain ⟨as, hloop, hcov⟩ := alignLoop_changes hbefore hafter es 0 0 [] [] []
    (Nat.zero_le _) (Nat.zero_le _) rfl rfl
  rw [hhunks, computeAlignmentsFromHunks, hlenB, hlenA]
  by_cases hempty : (Edit.source es).length = 0 ∧ (Edit.target es).length = 0
  · -- both files are empty, so the loop would have produced nothing as well
    rw [if_pos hempty]
    have hsrc := List.length_eq_zero_iff.mp hempty.1
    have htgt := List.length_eq_zero_iff.mp hempty.2
    have hes : es = [] := by
      cases es with
      | nil => rfl
      | cons e es => cases e <;> simp [Edit.source, Edit.target] at hsrc htgt
    subst hes
    exact ⟨[], rfl, ⟨⟨rfl, rfl⟩, rfl, by simp⟩⟩
  · rw [if_neg hempty]
    by_cases hnone : (changes es).map Hunk.ofChange = []
    · -- no hunks: both sides hold the same lines, so neither file is empty
      rw [if_pos hnone]
      have hch : changesFrom 0 0 0 0 es = [] := List.map_eq_nil_iff.mp hnone
      have heq := (source_eq_target_of_changesFrom_nil hch).2
      rw [← heq] at hempty ⊢
      have hpos : (Edit.source es).length ≠ 0 := fun h => hempty ⟨h, h⟩
      rw [alignWithoutHunks, if_neg hpos, if_neg hpos, hnone]
      refine ⟨_, rfl, ⟨⟨⟨rfl, rfl⟩, ⟨Nat.zero_le _, Nat.zero_le _⟩, rfl, rfl⟩, rfl, ?_⟩⟩
      intro x hx _
      rw [List.mem_singleton] at hx
      subst hx
      exact ⟨rfl, rfl⟩
    · rw [if_neg hnone]
      exact ⟨as, hloop, hcov⟩

/-- The tiling theorem at the pure insertion `@@ -3,0 +4,2 @@` of the unit test. -/
theorem alignments_tile_pure_insertion :
    ∃ as, computeAlignmentsFromHunks [⟨3, 0, 3, 2⟩]
        (some ⟨[], .text [['a'], ['b'], ['c'], ['d'], ['e']]⟩)
        (some ⟨[], .text [['a'], ['b'], ['c'], ['x'], ['y'], ['d'], ['e']]⟩) = some as ∧
      Covering [['a'], ['b'], ['c'], ['d'], ['e']]
        [['a'], ['b'], ['c'], ['x'], ['y'], ['d'], ['e']] [⟨3, 0, 3, 2⟩] 0 0 as :=
  alignments_tile_both_files
    [.keep ['a'], .keep ['b'], .keep ['c'], .insert ['x'], .insert ['y'], .keep ['d'], .keep ['e']]
    [] [] (by decide) (by decide)

end Builderbot.Git
