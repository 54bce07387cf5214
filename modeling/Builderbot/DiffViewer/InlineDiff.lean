import Mathlib.Data.List.Basic
import Mathlib.Data.Rat.Defs

/-!
# Line and character diffs inside a changed region

`packages/diff-viewer/src/lib/utils/inlineDiff.ts`. Lines are matched by a longest common
subsequence; the lines left over are paired greedily by similarity, and the pairs get character
highlights from a second common subsequence, of their tokens.

A string is its list of UTF-16 code units, so that lengths and offsets are the ones the code computes
with. The Unicode categories L and N, which the token pattern names, are a parameter.
-/

namespace Builderbot.DiffViewer

/-- A JavaScript string. -/
abbrev JsString := List UInt16

/-- The class of a line of the before side. -/
inductive BeforeLineClass where
  | removed
  | modified
  | unchanged
deriving DecidableEq, Repr

/-- The class of a line of the after side. -/
inductive AfterLineClass where
  | added
  | modified
  | unchanged
deriving DecidableEq, Repr

/-- A range of code units, `stop` excluded. -/
structure CharHighlight where
  start : ℕ
  stop : ℕ
deriving DecidableEq, Repr

/-- `ModifiedPair`. -/
structure ModifiedPair where
  beforeLineIndex : ℕ
  afterLineIndex : ℕ
  beforeHighlights : List CharHighlight
  afterHighlights : List CharHighlight
deriving DecidableEq, Repr

/-- `LineDiffResult`. -/
structure LineDiffResult where
  beforeLines : List BeforeLineClass
  afterLines : List AfterLineClass
  modifiedPairs : List ModifiedPair
deriving DecidableEq, Repr

/-! ## Longest common subsequences -/

section Lcs

variable {α : Type*} [DecidableEq α] (a b : List α)

/-- Row `i + 1` of the table, from row `i`. -/
def lcsRow (i : ℕ) (prev : ℕ → ℕ) : ℕ → ℕ
  | 0 => 0
  | j + 1 => if a[i]? = b[j]? then prev j + 1 else max (prev (j + 1)) (lcsRow i prev j)

/-- The entry `dp[i][j]` of the table in `lcsIndices`. -/
def lcsTable : ℕ → ℕ → ℕ
  | 0 => fun _ => 0
  | i + 1 => lcsRow a b i (lcsTable i)

/-- The way back from `(i + 1, j)`, given the ways back from the row below. -/
def lcsWalkRow (i : ℕ) (below : ℕ → List (ℕ × ℕ)) : ℕ → List (ℕ × ℕ)
  | 0 => []
  | j + 1 =>
    if a[i]? = b[j]? then (i, j) :: below j
    else if lcsTable a b (i + 1) j ≤ lcsTable a b i (j + 1) then below (j + 1)
    else lcsWalkRow i below j

/-- The loop of `lcsIndices` that walks back through the table, as the list of matched indices. -/
def lcsWalk : ℕ → ℕ → List (ℕ × ℕ)
  | 0 => fun _ => []
  | i + 1 => lcsWalkRow a b i (lcsWalk i)

/-- `lcsIndices`. -/
def lcsIndices : List ℕ × List ℕ :=
  ((lcsWalk a b a.length b.length).map Prod.fst, (lcsWalk a b a.length b.length).map Prod.snd)

end Lcs

/-- `lcsLength`, which keeps only two rows of the same table. -/
def lcsLength (a b : JsString) : ℕ := lcsTable a b a.length b.length

/-- `LCS_BAILOUT_PRODUCT`. -/
def LCS_BAILOUT_PRODUCT : ℕ := 1000000

/-- `similarity`. The quotient is exact here: below the bailout its distance from the threshold is
far above the rounding error of the floating-point division. -/
def similarity (a b : JsString) : ℚ :=
  if a.length = 0 ∧ b.length = 0 then 1
  else if a.length = 0 ∨ b.length = 0 then 0
  else if a.length * b.length > LCS_BAILOUT_PRODUCT then 0
  else (2 * lcsLength a b : ℚ) / (a.length + b.length)

/-- `SIMILARITY_THRESHOLD`. -/
def SIMILARITY_THRESHOLD : ℚ := 11 / 20

/-! ## Tokens -/

/-- The code points that `\s` matches and `trim` removes: white space and line terminators. -/
def isSpace (c : ℕ) : Bool :=
  (9 ≤ c && c ≤ 13) || c == 0x20 || c == 0xA0 || c == 0x1680 || (0x2000 ≤ c && c ≤ 0x200A) ||
    c == 0x2028 || c == 0x2029 || c == 0x202F || c == 0x205F || c == 0x3000 || c == 0xFEFF

/-- `String.prototype.trim`. -/
def trim (s : JsString) : JsString :=
  ((s.dropWhile fun u => isSpace u.toNat).reverse.dropWhile fun u => isSpace u.toNat).reverse

/-- The code points of a string, each with its code units; a lone surrogate stands for itself. -/
def codePoints : JsString → List (ℕ × JsString)
  | [] => []
  | [u] => [(u.toNat, [u])]
  | u :: v :: rest =>
    if (0xD800 ≤ u ∧ u ≤ 0xDBFF) ∧ 0xDC00 ≤ v ∧ v ≤ 0xDFFF then
      ((u.toNat - 0xD800) * 0x400 + (v.toNat - 0xDC00) + 0x10000, [u, v]) :: codePoints rest
    else (u.toNat, [u]) :: codePoints (v :: rest)

/-- The three alternatives of the token pattern. -/
inductive TokenClass where
  | word
  | space
  | other
deriving DecidableEq

/-- Join each run of word characters and each run of white space. -/
def joinRuns : List (TokenClass × JsString) → List (TokenClass × JsString)
  | [] => []
  | (c, units) :: rest =>
    match joinRuns rest with
    | [] => [(c, units)]
    | (c', token) :: tokens =>
      if c = c' ∧ c ≠ .other then (c, units ++ token) :: tokens
      else (c, units) :: (c', token) :: tokens

section Unicode

variable (isLetterOrNumber : ℕ → Bool)

/-- The alternative that matches a code point. -/
def tokenClass (c : ℕ) : TokenClass :=
  if isLetterOrNumber c || c == 95 then .word
  else if isSpace c then .space
  else .other

/-- `splitWords`. -/
def splitWords (text : JsString) : List JsString :=
  (joinRuns ((codePoints text).map fun p => (tokenClass isLetterOrNumber p.1, p.2))).map Prod.snd

/-! ## Character highlights -/

/-- The ranges of the tokens outside `matched`; `i` and `pos` are the index and the offset of the
next token. -/
def unmatchedRanges (matched : List ℕ) : List JsString → ℕ → ℕ → List CharHighlight
  | [], _, _ => []
  | token :: rest, i, pos =>
    let later := unmatchedRanges matched rest (i + 1) (pos + token.length)
    if i ∈ matched then later else ⟨pos, pos + token.length⟩ :: later

/-- The loop of `mergeHighlights`; `prev` is the last merged range. -/
def mergeInto (prev : CharHighlight) : List CharHighlight → List CharHighlight
  | [] => [prev]
  | curr :: rest =>
    if curr.start ≤ prev.stop then mergeInto ⟨prev.start, max prev.stop curr.stop⟩ rest
    else prev :: mergeInto curr rest

/-- `mergeHighlights`. -/
def mergeHighlights : List CharHighlight → List CharHighlight
  | [] => []
  | first :: rest => mergeInto first rest

/-- The highlight of a whole line. -/
def wholeLine (s : JsString) : List CharHighlight := if s.length > 0 then [⟨0, s.length⟩] else []

/-- `computeCharHighlights`. -/
def computeCharHighlights (before after : JsString) : List CharHighlight × List CharHighlight :=
  let beforeTokens := splitWords isLetterOrNumber before
  let afterTokens := splitWords isLetterOrNumber after
  if beforeTokens.length * afterTokens.length > LCS_BAILOUT_PRODUCT then
    (wholeLine before, wholeLine after)
  else
    let matched := lcsIndices beforeTokens afterTokens
    (mergeHighlights (unmatchedRanges matched.1 beforeTokens 0 0),
      mergeHighlights (unmatchedRanges matched.2 afterTokens 0 0))

/-! ## Line classes -/

/-- `MAX_SCAN_AHEAD`. -/
def MAX_SCAN_AHEAD : ℕ := 10

/-- The first of the next `n` entries that passes the test, with the entries before and after it. -/
def scanAhead (p : ℕ → Bool) : ℕ → List ℕ → Option (List ℕ × ℕ × List ℕ)
  | 0, _ => none
  | _, [] => none
  | n + 1, x :: xs =>
    if p x then some ([], x, xs)
    else (scanAhead p n xs).map fun r => (x :: r.1, r.2)

variable (beforeLines afterLines : List JsString)

/-- The two lines are similar enough to be shown as one modified line. -/
def similarLines (bIdx aIdx : ℕ) : Bool :=
  SIMILARITY_THRESHOLD < similarity (trim (beforeLines.getD bIdx [])) (trim (afterLines.getD aIdx []))

/-- `modifiedPairs.push` for two lines. -/
def modifiedPair (bIdx aIdx : ℕ) : ModifiedPair :=
  let highlights := computeCharHighlights isLetterOrNumber (beforeLines.getD bIdx [])
    (afterLines.getD aIdx [])
  ⟨bIdx, aIdx, highlights.1, highlights.2⟩

/-- The loops of `computeLineDiff` over the unmatched lines. The code tests the current after line,
then up to `MAX_SCAN_AHEAD` later ones; when a later one is similar it jumps there and the next round
of the loop pairs the two lines, so the test of the current line is the first step of one scan. -/
def pairLines : List ℕ → List ℕ → LineDiffResult → LineDiffResult
  | [], unmatchedAfter, r =>
    { r with afterLines := unmatchedAfter.foldl (fun cs a => cs.set a .added) r.afterLines }
  | bIdx :: unmatchedBefore, unmatchedAfter, r =>
    match scanAhead (similarLines beforeLines afterLines bIdx) (MAX_SCAN_AHEAD + 1)
        unmatchedAfter with
    | some (skipped, aIdx, rest) =>
      pairLines unmatchedBefore rest
        { beforeLines := r.beforeLines.set bIdx .modified
          afterLines :=
            (skipped.foldl (fun cs a => cs.set a .added) r.afterLines).set aIdx .modified
          modifiedPairs :=
            r.modifiedPairs ++ [modifiedPair isLetterOrNumber beforeLines afterLines bIdx aIdx] }
    | none =>
      pairLines unmatchedBefore unmatchedAfter
        { r with beforeLines := r.beforeLines.set bIdx .removed }

/-- `computeLineDiff`. -/
def computeLineDiff : LineDiffResult :=
  let matched := lcsIndices beforeLines afterLines
  let unmatchedBefore := (List.range beforeLines.length).filter (· ∉ matched.1)
  let unmatchedAfter := (List.range afterLines.length).filter (· ∉ matched.2)
  pairLines isLetterOrNumber beforeLines afterLines unmatchedBefore unmatchedAfter
    ⟨List.replicate beforeLines.length .unchanged, List.replicate afterLines.length .unchanged, []⟩

/-! ## The result has a class for every line -/

theorem length_foldl_set {α : Type*} (c : α) (indices : List ℕ) (classes : List α) :
    (indices.foldl (fun cs i => cs.set i c) classes).length = classes.length := by
  induction indices generalizing classes with
  | nil => rfl
  | cons i indices ih => rw [List.foldl_cons, ih, List.length_set]

theorem length_pairLines (unmatchedBefore unmatchedAfter : List ℕ) (r : LineDiffResult) :
    (pairLines isLetterOrNumber beforeLines afterLines unmatchedBefore unmatchedAfter
        r).beforeLines.length = r.beforeLines.length ∧
      (pairLines isLetterOrNumber beforeLines afterLines unmatchedBefore unmatchedAfter
        r).afterLines.length = r.afterLines.length := by
  induction unmatchedBefore generalizing unmatchedAfter r with
  | nil => exact ⟨rfl, length_foldl_set _ _ _⟩
  | cons bIdx unmatchedBefore ih =>
    rw [pairLines]
    split
    · rename_i skipped aIdx rest _
      obtain ⟨hbefore, hafter⟩ := ih rest _
      rw [hbefore, hafter, List.length_set, List.length_set, length_foldl_set]
      exact ⟨rfl, rfl⟩
    · obtain ⟨hbefore, hafter⟩ := ih unmatchedAfter
        { r with beforeLines := r.beforeLines.set bIdx .removed }
      rw [hbefore, hafter, List.length_set]
      exact ⟨rfl, rfl⟩

/-- `computeLineDiff` gives one class to each line. -/
theorem length_computeLineDiff :
    (computeLineDiff isLetterOrNumber beforeLines afterLines).beforeLines.length =
        beforeLines.length ∧
      (computeLineDiff isLetterOrNumber beforeLines afterLines).afterLines.length =
        afterLines.length := by
  obtain ⟨hbefore, hafter⟩ := length_pairLines isLetterOrNumber beforeLines afterLines
    ((List.range beforeLines.length).filter (· ∉ (lcsIndices beforeLines afterLines).1))
    ((List.range afterLines.length).filter (· ∉ (lcsIndices beforeLines afterLines).2))
    ⟨List.replicate beforeLines.length .unchanged, List.replicate afterLines.length .unchanged, []⟩
  exact ⟨hbefore.trans List.length_replicate, hafter.trans List.length_replicate⟩

end Unicode

end Builderbot.DiffViewer
