import Builderbot.Git.Types
import Builderbot.Lib.ByteText
import Mathlib.Data.Nat.Find

/-!
# Code fences in an assistant message

`extract_note_after_standalone_hr` and `extract_note_after_inline_hr` of `apps/staged/src-tauri/src/session_runner.rs` look
for the rule that separates a note from the text before it, and both skip fenced code blocks. The first marks the lines
that are inside a fence. The second computes byte ranges, from line lengths that do not count the carriage returns which
`lines` drops, and only for fences that are closed.

`fences_agree_iff` says for which texts the two agree.
-/

namespace Builderbot.Staged.NoteFences

open Builderbot.Lib.Text Builderbot.Lib.ByteText Builderbot.Git

/-- A line that opens or closes a fenced block. -/
def isFenceLine (line : Text) : Bool :=
  ['`', '`', '`'].isPrefixOf (trim line) || ['~', '~', '~'].isPrefixOf (trim line)

/-! ## The standalone rule -/

/-- `in_fence`: for each line, whether a fence is open after it. -/
def inFenceFrom (inside : Bool) : List Text → List Bool
  | [] => []
  | line :: rest =>
    let inside := if isFenceLine line then !inside else inside
    inside :: inFenceFrom inside rest

def inFence (text : Text) : List Bool := inFenceFrom false (lines text)

/-- The second loop of `extract_note_after_standalone_hr`. -/
def standaloneFrom : List (Text × Bool) → Option Text
  | [] => none
  | (line, inFence) :: rest =>
    if inFence then standaloneFrom rest
    else
      let trimmed := trim line
      if trimmed = ['-', '-', '-'] ∨ trimmed = ['*', '*', '*'] ∨ trimmed = ['_', '_', '_'] then
        let remaining := trim (List.intercalate ['\n'] (rest.map (·.1)))
        if remaining ≠ [] then some remaining else standaloneFrom rest
      else standaloneFrom rest

def extractNoteAfterStandaloneHr (text : Text) : Option Text :=
  standaloneFrom ((lines text).zip (inFence text))

/-! ## The inline rule -/

/-- The loop of `lineByteOffsets`. -/
def lineByteOffsetsFrom (offset : ℕ) : List Text → List (ℕ × Text)
  | [] => []
  | line :: rest => (offset, line) :: lineByteOffsetsFrom (offset + (byteLength line + 1)) rest

def lineByteOffsets (text : Text) : List (ℕ × Text) := lineByteOffsetsFrom 0 (lines text)

/-- The loop of `computeFenceRanges`. -/
def fenceRangesFrom (textLen : ℕ) : Option ℕ → List (ℕ × Text) → List (ℕ × ℕ)
  | _, [] => []
  | fenceStart, (lineStart, line) :: rest =>
    if isFenceLine line then
      match fenceStart with
      | some start => (start, lineStart) :: fenceRangesFrom textLen none rest
      | none =>
        let afterLine := lineStart + (byteLength line + 1)
        fenceRangesFrom textLen (some (min afterLine textLen)) rest
    else fenceRangesFrom textLen fenceStart rest

def computeFenceRanges (text : Text) : List (ℕ × ℕ) :=
  fenceRangesFrom (byteLength text) none (lineByteOffsets text)

def markers : List Text := [['-', '-', '-'], ['*', '*', '*'], ['_', '_', '_']]

/-- The body of the inner loop of `extract_note_after_inline_hr`; `none` for a slice that panics. -/
def considerMatch (text : Text) (fenceRanges : List (ℕ × ℕ)) (marker : Text) (markerChar : Char)
    (best : Option (ℕ × Text)) (idx : ℕ) : Option (Option (ℕ × Text)) :=
  if fenceRanges.any (fun r => r.1 ≤ idx && idx < r.2) then some best
  else do
    let markerEnd := idx + byteLength marker
    let before ← sliceTo idx text
    let after ← sliceFrom markerEnd text
    if before.getLast? = some markerChar ∨ after.head? = some markerChar then return best
    let remaining := trimStart after
    if ¬ ['#', ' '] <+: remaining then return best
    match best with
    | some (bestIdx, _) => if bestIdx ≤ idx then return best else return some (idx, remaining)
    | none => return some (idx, remaining)

/-- `best` after both loops. -/
def inlineBest (text : Text) : Option (Option (ℕ × Text)) :=
  markers.foldlM (fun best marker => do
    let markerChar ← marker.head?
    (matchIndices marker text).foldlM (considerMatch text (computeFenceRanges text) marker markerChar) best) none

def extractNoteAfterInlineHr (text : Text) : Option (Option Text) := (inlineBest text).map fun best => best.map (·.2)

/-! ## What the two have to agree on -/

/-- The byte position of the start of a line. -/
def lineStart (text : Text) (i : ℕ) : ℕ := byteLength ((linesInclusive text).take i).flatten

/-- The standalone scan takes the line for the content of a fenced block. -/
def MarkedContent (text : Text) (i : ℕ) : Prop :=
  (inFence text)[i]? = some true ∧ ∃ l, (lines text)[i]? = some l ∧ isFenceLine l = false

/-- A byte position in a range of the inline scan. -/
def InRange (text : Text) (pos : ℕ) : Prop := ∃ r ∈ computeFenceRanges text, r.1 ≤ pos ∧ pos < r.2

/-- The start of a line is in a range when the line is marked. -/
def FencesAgree (text : Text) : Prop :=
  ∀ i < (lines text).length, InRange text (lineStart text i) ↔ MarkedContent text i

/-- The rule after which the inline scan returns the rest is in no line that is marked. -/
def InlineOutside (text : Text) : Prop :=
  ∀ idx content, inlineBest text = some (some (idx, content)) →
    ∀ i < (lines text).length, lineStart text i ≤ idx → idx < lineStart text (i + 1) → ¬ MarkedContent text i

/-! ## Positions that drift -/

/-- Lines of which some are fences: their lengths, and how many characters before a line are in no length. -/
structure Layout where
  count : ℕ
  fence : ℕ → Bool
  len : ℕ → ℕ
  dropped : ℕ → ℕ
  dropped_mono : Monotone dropped

variable {i pos o j c : ℕ}

namespace Layout

variable (y : Layout)

/-- The position of a line as the lengths give it. -/
def offset : ℕ → ℕ
  | 0 => 0
  | i + 1 => offset i + (y.len i + 1)

/-- The position of a line. -/
def start (i : ℕ) : ℕ := y.offset i + y.dropped i

/-- A fence is open before the line. -/
def inside : ℕ → Bool
  | 0 => false
  | i + 1 => if y.fence i then !inside i else inside i

def Content (i : ℕ) : Prop := y.inside i = true ∧ y.fence i = false

/-- A fence that opens and the one that closes it. -/
structure Block (o c : ℕ) : Prop where
  opens : y.fence o = true
  outside : y.inside o = false
  lt : o < c
  lt_count : c < y.count
  closes : y.fence c = true
  between : ∀ k, o < k → k < c → y.fence k = false

def InRange (pos : ℕ) : Prop := ∃ o c, y.Block o c ∧ y.offset (o + 1) ≤ pos ∧ pos < y.offset c

/-- Every block is closed. -/
def Closed : Prop := ∀ i < y.count, y.Content i → ∃ j, i < j ∧ j < y.count ∧ y.fence j = true

/-- The line that opens a block with content, and the last line of the content, are as long as the drift before them. -/
def Long : Prop :=
  ∀ i, i + 1 < y.count → y.inside (i + 1) = true → y.fence i ≠ y.fence (i + 1) → y.dropped i ≤ y.len i

variable {y}

theorem offset_succ (i : ℕ) : y.offset (i + 1) = y.offset i + (y.len i + 1) := rfl

theorem offset_lt (h : i < j) : y.offset i + y.len i < y.offset j := by
  induction j with
  | zero => exact absurd h (Nat.not_lt_zero i)
  | succ j ih =>
    rw [offset_succ]
    rcases Nat.lt_succ_iff_lt_or_eq.mp h with hlt | rfl
    · have := ih hlt
      omega
    · omega

theorem offset_le (h : i ≤ j) : y.offset i ≤ y.offset j := by
  rcases Nat.lt_or_eq_of_le h with hlt | rfl
  · have := offset_lt (y := y) hlt
    omega
  · exact Nat.le_refl _

theorem start_lt (h : i < j) : y.start i < y.start j := by
  have hoffset := offset_lt (y := y) h
  have hdropped := y.dropped_mono (Nat.le_of_lt h)
  rw [start, start]
  omega

theorem start_le (h : i ≤ j) : y.start i ≤ y.start j :=
  Nat.add_le_add (offset_le h) (y.dropped_mono h)

theorem offset_le_start (i : ℕ) : y.offset i ≤ y.start i := Nat.le_add_right _ _

/-! ### Blocks -/

theorem inside_succ (i : ℕ) : y.inside (i + 1) = if y.fence i then !y.inside i else y.inside i := rfl

/-- Where a fence is open, there is a line that opened it. -/
theorem exists_open (h : y.inside i = true) :
    ∃ o < i, y.fence o = true ∧ y.inside o = false ∧ ∀ k, o < k → k < i → y.fence k = false := by
  induction i with
  | zero => exact absurd h Bool.false_ne_true
  | succ i ih =>
    cases hfence : y.fence i with
    | true =>
      rw [inside_succ, hfence, if_pos rfl, Bool.not_eq_true'] at h
      exact ⟨i, Nat.lt_succ_self i, hfence, h, fun k hk hlt => absurd hlt (by omega)⟩
    | false =>
      rw [inside_succ, hfence, if_neg Bool.false_ne_true] at h
      obtain ⟨o, ho, hopens, houtside, hbetween⟩ := ih h
      refine ⟨o, by omega, hopens, houtside, ?_⟩
      intro k hk hlt
      rcases Nat.lt_succ_iff_lt_or_eq.mp hlt with hlt | rfl
      · exact hbetween k hk hlt
      · exact hfence

/-- After an opening line a fence is open up to the next fence. -/
theorem inside_of_open (hopens : y.fence o = true) (houtside : y.inside o = false) (hlt : o < i)
    (hbetween : ∀ k, o < k → k < i → y.fence k = false) : y.inside i = true := by
  induction i with
  | zero => exact absurd hlt (Nat.not_lt_zero o)
  | succ i ih =>
    rw [inside_succ]
    rcases Nat.lt_succ_iff_lt_or_eq.mp hlt with hlt' | rfl
    · rw [hbetween i hlt' (Nat.lt_succ_self i), if_neg Bool.false_ne_true]
      exact ih hlt' fun k hk hki => hbetween k hk (by omega)
    · rw [hopens, if_pos rfl, houtside]
      rfl

theorem Block.inside {k : ℕ} (h : y.Block o c) (ho : o < k) (hc : k ≤ c) : y.inside k = true :=
  inside_of_open h.opens h.outside ho fun j hj hjk => h.between j hj (by omega)

theorem Block.content {k : ℕ} (h : y.Block o c) (ho : o < k) (hc : k < c) : y.Content k :=
  ⟨h.inside ho (Nat.le_of_lt hc), h.between k ho hc⟩

/-- Of two blocks with different ends one is before the other. -/
theorem Block.lt_of_lt {o' c' : ℕ} (h : y.Block o c) (h' : y.Block o' c') (hlt : c < c') : c < o' := by
  by_contra hle
  rcases Nat.lt_or_eq_of_le (Nat.le_of_not_lt hle) with ho | rfl
  · exact absurd (h.closes.symm.trans (h'.between c ho hlt)) Bool.false_ne_true.symm
  · exact absurd (h'.outside.symm.trans (h.inside h.lt (Nat.le_refl _))) Bool.false_ne_true

/-- The content before a fence is in a block. -/
theorem exists_block (h : y.Content i) (hlt : i < j) (hj : j < y.count) (hfence : y.fence j = true) :
    ∃ o c, y.Block o c ∧ o < i ∧ i < c := by
  obtain ⟨o, ho, hopens, houtside, hbetween⟩ := exists_open h.1
  have hex : ∃ c, i < c ∧ y.fence c = true := ⟨j, hlt, hfence⟩
  have hfind := Nat.find_spec hex
  have hle : Nat.find hex ≤ j := Nat.find_le ⟨hlt, hfence⟩
  refine ⟨o, Nat.find hex, ⟨hopens, houtside, by omega, by omega, hfind.2, ?_⟩, ho, hfind.1⟩
  intro k hk hkc
  rcases Nat.lt_trichotomy k i with hki | rfl | hki
  · exact hbetween k hk hki
  · exact h.2
  · have hmin := Nat.find_min hex hkc
    rw [not_and] at hmin
    exact Bool.eq_false_iff.mpr (hmin hki)

/-! ### When the positions agree -/

/-- The start of every line is in a range when the line is content. -/
def Agree (y : Layout) : Prop := ∀ i < y.count, y.InRange (y.start i) ↔ y.Content i

theorem Block.offset_le (h : y.Block o c) : y.offset (o + 1) ≤ y.offset c := Layout.offset_le h.lt

/-- Where the drift is short, the end of a block is after the start of its last line. -/
theorem Long.start_lt_offset (h : y.Long) (hb : y.Block o c) (ho : o < i) (hc : i < c) :
    y.start i < y.offset c := by
  obtain ⟨k, rfl⟩ := Nat.exists_eq_add_one_of_ne_zero (Nat.ne_of_gt (Nat.lt_of_le_of_lt (Nat.zero_le o) hb.lt))
  have hlast := hb.content (k := k) (by omega) (Nat.lt_succ_self k)
  have hdropped : y.dropped k ≤ y.len k := by
    apply h k hb.lt_count (hb.inside hb.lt (Nat.le_refl _))
    rw [hlast.2, hb.closes]
    exact Bool.false_ne_true
  have hle : y.start i ≤ y.start k := start_le (Nat.le_of_lt_succ hc)
  rw [offset_succ]
  rw [start, start] at *
  omega

/-- Where the drift is short, a block with content begins after the start of its opening line. -/
theorem Long.start_open_lt (h : y.Long) (hb : y.Block o c) (hc : o + 1 < c) :
    y.start o < y.offset (o + 1) := by
  have hcontent := hb.content (k := o + 1) (Nat.lt_succ_self o) hc
  have hdropped : y.dropped o ≤ y.len o := by
    apply h o (Nat.lt_trans hc hb.lt_count) hcontent.1
    rw [hb.opens, hcontent.2]
    exact Bool.false_ne_true.symm
  rw [offset_succ, start]
  omega

theorem agree_of_long (hclosed : y.Closed) (h : y.Long) : y.Agree := by
  intro i hi
  constructor
  · rintro ⟨o, c, hb, hlo, hhi⟩
    rcases Nat.lt_or_ge i c with hic | hic
    · rcases Nat.lt_or_ge o i with hoi | hoi
      · exact hb.content hoi hic
      · -- a line before the block starts before it
        have hc : o + 1 < c := by
          by_contra hc
          have hle := offset_le (y := y) (Nat.le_of_not_lt hc)
          omega
        have hlt := h.start_open_lt hb hc
        have hle : y.start i ≤ y.start o := start_le hoi
        omega
    · have hle := Nat.le_trans (offset_le (y := y) hic) (offset_le_start i)
      omega
  · intro hcontent
    obtain ⟨j, hij, hj, hfence⟩ := hclosed i hi hcontent
    obtain ⟨o, c, hb, ho, hc⟩ := exists_block hcontent hij hj hfence
    have hlo : y.offset (o + 1) ≤ y.start i := Nat.le_trans (offset_le ho) (offset_le_start i)
    exact ⟨o, c, hb, hlo, h.start_lt_offset hb ho hc⟩

theorem closed_of_agree (h : y.Agree) : y.Closed := by
  intro i hi hcontent
  obtain ⟨o, c, hb, hlo, hhi⟩ := (h i hi).mpr hcontent
  refine ⟨c, ?_, hb.lt_count, hb.closes⟩
  by_contra hle
  have := Nat.le_trans (offset_le (y := y) (Nat.le_of_not_lt hle)) (offset_le_start i)
  omega

/-- Where the positions agree, the last line of a block starts before the end of its range: else it would be in the range
of a later block, and the lines between would push that block's last line out of its range. -/
theorem last_lt_of_agree (h : y.Agree) {k : ℕ} (hb : y.Block o (k + 1)) (ho : o < k) :
    y.start k < y.offset (k + 1) := by
  induction hm : y.count - k using Nat.strong_induction_on generalizing o k with
  | h m ih =>
    have hk : k < y.count := Nat.lt_of_succ_lt hb.lt_count
    obtain ⟨o', c', hb', hlo, hhi⟩ := (h k hk).mpr (hb.content ho (Nat.lt_succ_self k))
    have hkc : k < c' := by
      by_contra hle
      have := Nat.le_trans (offset_le (y := y) (Nat.le_of_not_lt hle)) (offset_le_start k)
      omega
    rcases Nat.lt_or_eq_of_le hkc with hlt | rfl
    · -- a later block
      have hafter := hb.lt_of_lt hb' hlt
      obtain ⟨k', rfl⟩ := Nat.exists_eq_add_one_of_ne_zero (Nat.ne_of_gt (Nat.lt_of_le_of_lt (Nat.zero_le k) hkc))
      have hne : o' < k' := by
        by_contra hle
        have := offset_le (y := y) (i := k' + 1) (j := o' + 1) (by omega)
        omega
      have hlast := ih (y.count - k') (by omega) hb' hne rfl
      have hopen := (h o' (Nat.lt_trans hb'.lt hb'.lt_count)).mp ⟨o', k' + 1, hb', by
        have := start_lt (y := y) (i := k) (j := o') (by omega)
        omega, by
        have := start_lt (y := y) hne
        omega⟩
      exact absurd (hb'.opens.symm.trans hopen.2) Bool.false_ne_true.symm
    · exact hhi

theorem long_of_agree (h : y.Agree) : y.Long := by
  intro i hi hinside hne
  have hclosed := closed_of_agree h
  cases hfence : y.fence i with
  | false =>
    -- the last line of a block
    rw [inside_succ, hfence, if_neg Bool.false_ne_true] at hinside
    have hnext : y.fence (i + 1) = true := by
      rw [hfence] at hne
      exact Bool.eq_true_of_not_eq_false hne.symm
    obtain ⟨o, c, hb, ho, hc⟩ := exists_block ⟨hinside, hfence⟩ (Nat.lt_succ_self i) hi hnext
    have hcend : c = i + 1 := by
      by_contra hcne
      exact absurd (hnext.symm.trans (hb.between (i + 1) (by omega) (by omega))) Bool.false_ne_true.symm
    subst hcend
    have hlast := last_lt_of_agree h hb ho
    rw [offset_succ, start] at hlast
    omega
  | true =>
    -- the line that opens a block
    have hnext : y.fence (i + 1) = false := by
      rw [hfence] at hne
      exact Bool.eq_false_of_not_eq_true hne.symm
    obtain ⟨j, hij, hj, hjfence⟩ := hclosed (i + 1) hi ⟨hinside, hnext⟩
    obtain ⟨o, c, hb, ho, hc⟩ := exists_block ⟨hinside, hnext⟩ hij hj hjfence
    have hoi : o = i := by
      by_contra hone
      exact absurd (hfence.symm.trans (hb.between i (by omega) (by omega))) Bool.false_ne_true.symm
    subst hoi
    obtain ⟨k, rfl⟩ := Nat.exists_eq_add_one_of_ne_zero (Nat.ne_of_gt (Nat.lt_of_le_of_lt (Nat.zero_le _) hc))
    have hlast := last_lt_of_agree h hb (by omega)
    have hlt := start_lt (y := y) (i := o) (j := k) (by omega)
    by_contra hlong
    have hcontent := (h o (by omega)).mp ⟨o, k + 1, hb, by
      rw [offset_succ, start]
      omega, by omega⟩
    exact absurd (hfence.symm.trans hcontent.2) Bool.false_ne_true.symm

theorem agree_iff : y.Agree ↔ y.Closed ∧ y.Long :=
  ⟨fun h => ⟨closed_of_agree h, long_of_agree h⟩, fun h => agree_of_long h.1 h.2⟩

/-! ### Positions inside lines -/

/-- A position in a line. -/
def At (y : Layout) (i pos : ℕ) : Prop := i < y.count ∧ y.start i ≤ pos ∧ pos < y.start (i + 1)

/-- A position in the last line of a block, no further from its end than the drift there. -/
def Late (y : Layout) (pos : ℕ) : Prop :=
  ∃ i, y.Content i ∧ y.At i pos ∧ i + 1 < y.count ∧ y.fence (i + 1) = true ∧ y.start (i + 1) ≤ pos + y.dropped (i + 1)

/-- A position outside the blocks, further from the end of an opening line than the drift there. -/
def Ahead (y : Layout) (pos : ℕ) : Prop :=
  ∀ i, y.At i pos → ¬ y.Content i ∧
    (y.fence i = true → i + 1 < y.count → y.Content (i + 1) → pos + y.dropped (i + 1) < y.start (i + 1))

theorem At.eq (h : y.At i pos) (h' : y.At j pos) : i = j := by
  by_contra hne
  rcases Nat.lt_or_gt_of_ne hne with hlt | hlt
  · have hle : y.start (i + 1) ≤ y.start j := start_le hlt
    have := h.2.2
    have := h'.2.1
    omega
  · have hle : y.start (j + 1) ≤ y.start i := start_le hlt
    have := h'.2.2
    have := h.2.1
    omega

theorem InRange.exists_block_content (h : y.InRange pos) :
    ∃ o c, y.Block o c ∧ o + 1 < c ∧ y.offset (o + 1) ≤ pos ∧ pos < y.offset c := by
  obtain ⟨o, c, hb, hlo, hhi⟩ := h
  refine ⟨o, c, hb, ?_, hlo, hhi⟩
  by_contra hc
  have := offset_le (y := y) (Nat.le_of_not_lt hc)
  omega

/-- In the content of a block only the last positions are in no range. -/
theorem not_inRange_iff_late (hclosed : y.Closed) (hlong : y.Long) (hat : y.At i pos) (hcontent : y.Content i) :
    ¬ y.InRange pos ↔ y.Late pos := by
  obtain ⟨hi, hlo, hhi⟩ := hat
  obtain ⟨j, hij, hj, hfence⟩ := hclosed i hi hcontent
  obtain ⟨o, c, hb, ho, hc⟩ := exists_block hcontent hij hj hfence
  constructor
  · intro hnot
    have hge : y.offset c ≤ pos := by
      by_contra hlt
      have hstart : y.offset (o + 1) ≤ y.start i := Nat.le_trans (offset_le ho) (offset_le_start i)
      exact hnot ⟨o, c, hb, by omega, by omega⟩
    -- the range ends in the last line
    have hlast : c = i + 1 := by
      by_contra hne
      have := hlong.start_lt_offset hb (i := i + 1) (by omega) (by omega)
      omega
    subst hlast
    refine ⟨i, hcontent, ⟨hi, hlo, hhi⟩, hb.lt_count, hb.closes, ?_⟩
    rw [start]
    omega
  · rintro ⟨i', -, hat', hi', hfence', hlate⟩ hrange
    obtain rfl := At.eq ⟨hi, hlo, hhi⟩ hat'
    obtain ⟨o', c', hb', hne, hlo', hhi'⟩ := hrange.exists_block_content
    have hge : y.offset (i + 1) ≤ pos := by
      rw [start] at hlate
      omega
    have hlt : i + 1 < c' := by
      by_contra hle
      have := offset_le (y := y) (Nat.le_of_not_lt hle)
      omega
    have hafter : i + 1 < o' := by
      by_contra hle
      rcases Nat.lt_or_eq_of_le (Nat.le_of_not_lt hle) with hlt' | rfl
      · exact absurd (hfence'.symm.trans (hb'.between (i + 1) hlt' hlt)) Bool.false_ne_true.symm
      · have hinside : y.inside (i + 1) = true := by
          rw [inside_succ, hcontent.2, if_neg Bool.false_ne_true]
          exact hcontent.1
        exact absurd (hb'.outside.symm.trans hinside) Bool.false_ne_true
    have hopen := hlong.start_open_lt hb' hne
    have hle : y.start (i + 1) ≤ y.start o' := start_le (Nat.le_of_lt hafter)
    omega

/-- Outside the blocks only the last positions of opening lines are in a range. -/
theorem not_inRange_iff_ahead (hclosed : y.Closed) (hlong : y.Long) (hat : y.At i pos)
    (hcontent : ¬ y.Content i) : ¬ y.InRange pos ↔ y.Ahead pos := by
  obtain ⟨hi, hlo, hhi⟩ := hat
  constructor
  · intro hnot i' hat'
    obtain rfl := At.eq ⟨hi, hlo, hhi⟩ hat'
    refine ⟨hcontent, ?_⟩
    intro hfence hi' hnext
    obtain ⟨j, hij, hj, hjfence⟩ := hclosed (i + 1) hi' hnext
    obtain ⟨o, c, hb, ho, hc⟩ := exists_block hnext hij hj hjfence
    have hoi : o = i := by
      by_contra hone
      exact absurd (hfence.symm.trans (hb.between i (by omega) (by omega))) Bool.false_ne_true.symm
    subst hoi
    have hend := hlong.start_lt_offset hb ho hc
    by_contra hge
    rw [start] at hge
    exact hnot ⟨o, c, hb, by omega, by omega⟩
  · intro hahead hrange
    obtain ⟨o, c, hb, hne, hlo', hhi'⟩ := hrange.exists_block_content
    have hic : i < c := by
      by_contra hge
      have := Nat.le_trans (offset_le (y := y) (Nat.le_of_not_lt hge)) (offset_le_start i)
      omega
    have hio : i ≤ o := by
      by_contra hlt
      exact hcontent (hb.content (Nat.lt_of_not_le hlt) hic)
    have hopen := hlong.start_open_lt hb hne
    rcases Nat.lt_or_eq_of_le hio with hlt | rfl
    · have hle : y.start (i + 1) ≤ y.start o := start_le hlt
      omega
    · have hlt := (hahead i ⟨hi, hlo, hhi⟩).2 hb.opens (Nat.lt_trans hne hb.lt_count)
        (hb.content (Nat.lt_succ_self i) hne)
      rw [start] at hlt
      omega

/-- The first of some positions that are in no range is in no content exactly when every late one has one ahead before
it. -/
theorem first_outside_iff (hclosed : y.Closed) (hlong : y.Long) {rule : ℕ → Prop}
    (hrule : ∀ pos, rule pos → ∃ i, y.At i pos) :
    (∀ pos, rule pos → ¬ y.InRange pos → (∀ pos', rule pos' → ¬ y.InRange pos' → pos ≤ pos') →
      ∀ i, y.At i pos → ¬ y.Content i) ↔
    ∀ pos, rule pos → y.Late pos → ∃ pos' < pos, rule pos' ∧ y.Ahead pos' := by
  classical
  constructor
  · intro h pos hpos hlate
    obtain ⟨i, hcontent, hat, -⟩ := id hlate
    have hex : ∃ p, rule p ∧ ¬ y.InRange p :=
      ⟨pos, hpos, (not_inRange_iff_late hclosed hlong hat hcontent).mpr hlate⟩
    have hfirst := h (Nat.find hex) (Nat.find_spec hex).1 (Nat.find_spec hex).2
      fun p hp hnot => Nat.find_min' hex ⟨hp, hnot⟩
    have hle : Nat.find hex ≤ pos :=
      Nat.find_min' hex ⟨hpos, (not_inRange_iff_late hclosed hlong hat hcontent).mpr hlate⟩
    have hne : Nat.find hex ≠ pos := fun heq => hfirst i (heq ▸ hat) hcontent
    obtain ⟨j, hj⟩ := hrule _ (Nat.find_spec hex).1
    exact ⟨Nat.find hex, Nat.lt_of_le_of_ne hle hne, (Nat.find_spec hex).1,
      (not_inRange_iff_ahead hclosed hlong hj (hfirst j hj)).mp (Nat.find_spec hex).2⟩
  · intro h pos hpos hnot hmin i hat hcontent
    obtain ⟨pos', hlt, hpos', hahead⟩ := h pos hpos ((not_inRange_iff_late hclosed hlong hat hcontent).mp hnot)
    obtain ⟨j, hj⟩ := hrule pos' hpos'
    have hle := hmin pos' hpos' ((not_inRange_iff_ahead hclosed hlong hj (hahead j hj).1).mpr hahead)
    omega

end Layout

/-! ## The layout of a text -/

/-- A line that ends with a carriage return and a line feed. -/
def endsCrlf (raw : Text) : Bool := ['\r', '\n'].isSuffixOf raw

/-- The lines before a line that end with a carriage return and a line feed. -/
def crlfs (text : Text) (i : ℕ) : ℕ := ((linesInclusive text).take i).countP endsCrlf

/-- An odd number of fence lines comes before the line. -/
def InsideFence (text : Text) (i : ℕ) : Prop := ((lines text).take i).countP isFenceLine % 2 = 1

variable {raw : Text}

theorem crlfs_succ (text : Text) (i : ℕ) (h : (linesInclusive text)[i]? = some raw) :
    crlfs text (i + 1) = crlfs text i + if endsCrlf raw then 1 else 0 := by
  rw [crlfs, crlfs, List.take_add_one, h, List.countP_append]
  cases hraw : endsCrlf raw <;> simp [hraw]

/-- The lines of a text. -/
def layout (text : Text) : Layout where
  count := (lines text).length
  fence i := ((lines text)[i]?.map isFenceLine).getD false
  len i := ((lines text)[i]?.map byteLength).getD 0
  dropped := crlfs text
  dropped_mono := by
    apply monotone_nat_of_le_succ
    intro i
    exact (List.take_sublist_take_left (Nat.le_succ i)).countP_le

section Layout

variable {text : Text} {i : ℕ} {l : Text}

theorem layout_fence (h : (lines text)[i]? = some l) : (layout text).fence i = isFenceLine l := by
  simp [layout, h]

theorem layout_len (h : (lines text)[i]? = some l) : (layout text).len i = byteLength l := by
  simp [layout, h]

theorem lt_count_iff : i < (layout text).count ↔ ∃ l, (lines text)[i]? = some l := by
  constructor
  · exact fun h => ⟨(lines text)[i], List.getElem?_eq_getElem h⟩
  · rintro ⟨l, hl⟩
    exact (List.getElem?_eq_some_iff.mp hl).1

theorem fence_eq_true_iff : (layout text).fence i = true ↔ ∃ l, (lines text)[i]? = some l ∧ isFenceLine l = true := by
  cases h : (lines text)[i]? with
  | none => simp [layout, h]
  | some l => simp [layout, h]

theorem drop_cons (h : (lines text)[i]? = some l) : (lines text).drop i = l :: (lines text).drop (i + 1) := by
  obtain ⟨hi, rfl⟩ := List.getElem?_eq_some_iff.mp h
  exact List.drop_eq_getElem_cons hi

/-- `in_fence` says of a line whether a fence is open after it. -/
theorem inFence_getElem? (h : i < (layout text).count) : (inFence text)[i]? = some ((layout text).inside (i + 1)) := by
  have hfrom : ∀ (k j : ℕ), j + k < (layout text).count →
      (inFenceFrom ((layout text).inside j) ((lines text).drop j))[k]? = some ((layout text).inside (j + k + 1)) := by
    intro k
    induction k with
    | zero =>
      intro j hj
      rw [Nat.add_zero] at hj
      obtain ⟨l, hl⟩ := lt_count_iff.mp hj
      rw [Nat.add_zero, drop_cons hl, inFenceFrom, List.getElem?_cons_zero, Layout.inside_succ, layout_fence hl]
    | succ k ih =>
      intro j hj
      have hcount : j < (layout text).count := by omega
      obtain ⟨l, hl⟩ := lt_count_iff.mp hcount
      have hsum : j + (k + 1) = (j + 1) + k := by omega
      rw [drop_cons hl, inFenceFrom, List.getElem?_cons_succ, ← layout_fence hl, hsum]
      exact ih (j + 1) (by omega)
  have hzero := hfrom i 0 (by omega)
  rwa [List.drop_zero, Nat.zero_add] at hzero

theorem layout_inside (h : i ≤ (layout text).count) : (layout text).inside i = true ↔ InsideFence text i := by
  induction i with
  | zero => simp [Layout.inside, InsideFence]
  | succ i ih =>
    obtain ⟨l, hl⟩ := lt_count_iff.mp h
    have hih := ih (Nat.le_of_lt h)
    rw [InsideFence] at hih
    rw [Layout.inside_succ, layout_fence hl, InsideFence, List.take_add_one, hl, Option.toList_some, List.countP_append,
      List.countP_singleton]
    cases isFenceLine l with
    | true =>
      rw [if_pos rfl, if_pos rfl, Bool.not_eq_true', ← Bool.not_eq_true, hih]
      omega
    | false =>
      rw [if_neg Bool.false_ne_true, if_neg Bool.false_ne_true, Nat.add_zero]
      exact hih

theorem markedContent_iff (h : i < (layout text).count) : MarkedContent text i ↔ (layout text).Content i := by
  obtain ⟨l, hl⟩ := lt_count_iff.mp h
  rw [MarkedContent, inFence_getElem? h, Layout.Content, Layout.inside_succ, layout_fence hl, hl, Option.some.injEq]
  cases hfence : isFenceLine l with
  | true => simp [hfence]
  | false => simp [hfence]

/-! ### Where the lines start -/

theorem lineStart_succ (h : (linesInclusive text)[i]? = some raw) :
    lineStart text (i + 1) = lineStart text i + byteLength raw := by
  rw [lineStart, lineStart, List.take_add_one, h, Option.toList_some, List.flatten_append, byteLength_append]
  simp

theorem lineStart_le (text : Text) (i : ℕ) : lineStart text i ≤ byteLength text := by
  have happ := congrArg List.flatten (List.take_append_drop i (linesInclusive text))
  rw [List.flatten_append, flatten_linesInclusive] at happ
  have hlen := congrArg byteLength happ
  rw [byteLength_append] at hlen
  rw [lineStart]
  omega

/-- The length of a line with a terminator. -/
theorem byteLength_terminated (l : Text) : byteLength (l ++ ['\n']) =
    byteLength (chomp (l ++ ['\n'])) + 1 + if endsCrlf (l ++ ['\n']) then 1 else 0 := by
  have hchomp : chomp (l ++ ['\n']) = stripCr l := by simp [chomp]
  have hnl : '\n'.utf8Size = 1 := rfl
  have hends : endsCrlf (l ++ ['\n']) = true ↔ l.getLast? = some '\r' := by
    rw [endsCrlf, List.isSuffixOf_iff_suffix]
    constructor
    · rintro ⟨t, ht⟩
      have happ : l ++ ['\n'] = (t ++ ['\r']) ++ ['\n'] := by
        rw [← ht]
        simp
      rw [List.append_cancel_right happ]
      simp
    · intro hlast
      obtain ⟨t, rfl⟩ := List.getLast?_eq_some_iff.mp hlast
      exact ⟨t, by simp⟩
  rw [hchomp, stripCr, byteLength_append, byteLength_cons, byteLength_nil, hnl]
  cases hcr : endsCrlf (l ++ ['\n']) with
  | true =>
    obtain ⟨t, rfl⟩ := List.getLast?_eq_some_iff.mp (hends.mp hcr)
    have hr : '\r'.utf8Size = 1 := rfl
    simp [hr]
  | false =>
    rw [if_neg fun hlast => absurd (hends.mpr hlast) (by rw [hcr]; exact Bool.false_ne_true)]
    simp

/-- The length of a line that is not the last. -/
theorem byteLength_raw (h : (linesInclusive text)[i]? = some raw) (hlast : i + 1 < (lines text).length) :
    byteLength raw = byteLength (chomp raw) + 1 + if endsCrlf raw then 1 else 0 := by
  rw [lines_eq_map_chomp, List.length_map] at hlast
  obtain ⟨l, hl, rfl | ⟨-, -, hlen⟩⟩ := linesInclusive_terminated h
  · exact byteLength_terminated l
  · omega

/-- The length of any line. -/
theorem byteLength_raw_le (h : (linesInclusive text)[i]? = some raw) :
    byteLength raw ≤ byteLength (chomp raw) + 1 + if endsCrlf raw then 1 else 0 := by
  obtain ⟨l, hl, rfl | ⟨rfl, -, -⟩⟩ := linesInclusive_terminated h
  · exact Nat.le_of_eq (byteLength_terminated l)
  · have hchomp : chomp raw = raw := by
      rw [chomp, if_neg]
      exact fun hlast => hl (List.mem_of_getLast? hlast)
    rw [hchomp]
    omega

theorem exists_raw {l : Text} (h : (lines text)[i]? = some l) : ∃ raw, (linesInclusive text)[i]? = some raw ∧ chomp raw = l := by
  rwa [lines_eq_map_chomp, List.getElem?_map, Option.map_eq_some_iff] at h

theorem lineStart_eq (h : i < (layout text).count) : lineStart text i = (layout text).start i := by
  induction i with
  | zero => simp [lineStart, Layout.start, Layout.offset, layout, crlfs]
  | succ i ih =>
    obtain ⟨l, hl⟩ := lt_count_iff.mp (Nat.lt_of_succ_lt h)
    obtain ⟨raw, hraw, rfl⟩ := exists_raw hl
    have hlen := byteLength_raw hraw h
    have hcrlfs := crlfs_succ text i hraw
    have hih := ih (Nat.lt_of_succ_lt h)
    have hdropped : ∀ j, (layout text).dropped j = crlfs text j := fun _ => rfl
    rw [Layout.start, hdropped] at hih ⊢
    rw [lineStart_succ hraw, Layout.offset_succ, layout_len hl, hih, hlen, hcrlfs]
    omega

/-! ### The ranges -/

section Loop

variable {textLen start pos : ℕ} {line : Text} {rest : List (ℕ × Text)}

theorem fenceRangesFrom_opening (h : isFenceLine line = true) : fenceRangesFrom textLen none ((pos, line) :: rest) =
    fenceRangesFrom textLen (some (min (pos + (byteLength line + 1)) textLen)) rest := by
  simp [fenceRangesFrom, h]

theorem fenceRangesFrom_closing (h : isFenceLine line = true) :
    fenceRangesFrom textLen (some start) ((pos, line) :: rest) = (start, pos) :: fenceRangesFrom textLen none rest := by
  simp [fenceRangesFrom, h]

theorem fenceRangesFrom_other (h : isFenceLine line = false) (st : Option ℕ) :
    fenceRangesFrom textLen st ((pos, line) :: rest) = fenceRangesFrom textLen st rest := by
  cases st <;> simp [fenceRangesFrom, h]

end Loop

/-- The loop of `compute_fence_ranges` from a line on, where `st` is the position after the fence that is open. -/
theorem mem_fenceRangesFrom {textLen : ℕ} {r : ℕ × ℕ} (ls : List Text) {st : Option ℕ} (hls : (lines text).drop i = ls)
    (hst : st = none ∧ (layout text).inside i = false ∨ ∃ o < i, st = some (min ((layout text).offset (o + 1)) textLen) ∧
      (layout text).fence o = true ∧ (layout text).inside o = false ∧
      ∀ k, o < k → k < i → (layout text).fence k = false) :
    r ∈ fenceRangesFrom textLen st (lineByteOffsetsFrom ((layout text).offset i) ls) ↔
      ∃ o c, (layout text).Block o c ∧ i ≤ c ∧ r = (min ((layout text).offset (o + 1)) textLen, (layout text).offset c) := by
  induction ls generalizing i st with
  | nil =>
    rw [lineByteOffsetsFrom, fenceRangesFrom]
    constructor
    · exact fun h => absurd h List.not_mem_nil
    · rintro ⟨o, c, hb, hc, -⟩
      have hcount : (layout text).count ≤ i := List.drop_eq_nil_iff.mp hls
      exact absurd hb.lt_count (by omega)
  | cons l ls ih =>
    have hl : (lines text)[i]? = some l := by
      have hhead := congrArg List.head? hls
      rwa [List.head?_drop] at hhead
    have hls' : (lines text).drop (i + 1) = ls := by
      rw [← List.tail_drop, hls]
      rfl
    have hfence := layout_fence hl
    have hoffset : (layout text).offset i + (byteLength l + 1) = (layout text).offset (i + 1) := by
      rw [Layout.offset_succ, layout_len hl]
    have hinside := Layout.inside_succ (y := layout text) i
    rw [lineByteOffsetsFrom, hoffset]
    rw [hfence] at hinside
    cases hline : isFenceLine l with
    | true =>
      rw [hline] at hfence hinside
      rw [if_pos rfl] at hinside
      rcases hst with ⟨rfl, houtside⟩ | ⟨o, ho, rfl, hopens, houtside, hbetween⟩
      · -- the line opens a block
        rw [fenceRangesFrom_opening hline, hoffset,
          ih hls' (.inr ⟨i, Nat.lt_succ_self i, rfl, hfence, houtside, fun k hk hki => absurd hki (by omega)⟩)]
        constructor
        · rintro ⟨o, c, hb, hc, hr⟩
          exact ⟨o, c, hb, Nat.le_of_lt hc, hr⟩
        · rintro ⟨o, c, hb, hc, hr⟩
          refine ⟨o, c, hb, ?_, hr⟩
          by_contra hlt
          obtain rfl : i = c := by omega
          exact absurd (houtside.symm.trans (hb.inside hb.lt (Nat.le_refl _))) Bool.false_ne_true
      · -- the line closes the block
        have hopen := Layout.inside_of_open hopens houtside ho hbetween
        have hclosed : (layout text).inside (i + 1) = false := by
          rw [hinside, hopen]
          rfl
        rw [fenceRangesFrom_closing hline, List.mem_cons, ih hls' (.inl ⟨rfl, hclosed⟩)]
        constructor
        · rintro (rfl | ⟨o', c, hb, hc, hr⟩)
          · exact ⟨o, i, ⟨hopens, houtside, ho, lt_count_iff.mpr ⟨l, hl⟩, hfence, hbetween⟩, Nat.le_refl _, rfl⟩
          · exact ⟨o', c, hb, Nat.le_of_lt hc, hr⟩
        · rintro ⟨o', c, hb, hc, hr⟩
          rcases Nat.lt_or_eq_of_le hc with hlt | rfl
          · exact .inr ⟨o', c, hb, hlt, hr⟩
          · left
            rcases Nat.lt_trichotomy o o' with hlt | rfl | hlt
            · exact absurd (hb.opens.symm.trans (hbetween o' hlt hb.lt)) Bool.false_ne_true.symm
            · exact hr
            · exact absurd (hopens.symm.trans (hb.between o hlt ho)) Bool.false_ne_true.symm
    | false =>
      rw [hline] at hfence hinside
      rw [if_neg Bool.false_ne_true] at hinside
      -- no fence: the position of the open one moves on
      have hst' : st = none ∧ (layout text).inside (i + 1) = false ∨
          ∃ o < i + 1, st = some (min ((layout text).offset (o + 1)) textLen) ∧ (layout text).fence o = true ∧
            (layout text).inside o = false ∧ ∀ k, o < k → k < i + 1 → (layout text).fence k = false := by
        rcases hst with ⟨rfl, houtside⟩ | ⟨o, ho, hst, hopens, houtside, hbetween⟩
        · exact .inl ⟨rfl, hinside.trans houtside⟩
        · refine .inr ⟨o, by omega, hst, hopens, houtside, ?_⟩
          intro k hk hki
          rcases Nat.lt_succ_iff_lt_or_eq.mp hki with hlt | rfl
          · exact hbetween k hk hlt
          · exact hfence
      rw [fenceRangesFrom_other hline, ih hls' hst']
      constructor
      · rintro ⟨o, c, hb, hc, hr⟩
        exact ⟨o, c, hb, Nat.le_of_lt hc, hr⟩
      · rintro ⟨o, c, hb, hc, hr⟩
        refine ⟨o, c, hb, ?_, hr⟩
        by_contra hlt
        obtain rfl : i = c := by omega
        exact absurd (hfence.symm.trans hb.closes) Bool.false_ne_true

/-- The ranges are those of the blocks. -/
theorem inRange_iff : InRange text pos ↔ (layout text).InRange pos := by
  have hmem : ∀ r, r ∈ computeFenceRanges text ↔ ∃ o c, (layout text).Block o c ∧
      r = (min ((layout text).offset (o + 1)) (byteLength text), (layout text).offset c) := by
    intro r
    have h : r ∈ computeFenceRanges text ↔ ∃ o c, (layout text).Block o c ∧ 0 ≤ c ∧
        r = (min ((layout text).offset (o + 1)) (byteLength text), (layout text).offset c) :=
      mem_fenceRangesFrom (lines text) List.drop_zero (.inl ⟨rfl, rfl⟩)
    simp only [Nat.zero_le, true_and] at h
    exact h
  have hmin : ∀ {o c}, (layout text).Block o c →
      min ((layout text).offset (o + 1)) (byteLength text) = (layout text).offset (o + 1) := by
    intro o c hb
    apply Nat.min_eq_left
    apply Nat.le_trans hb.offset_le
    apply Nat.le_trans (Layout.offset_le_start c)
    rw [← lineStart_eq hb.lt_count]
    exact lineStart_le text c
  constructor
  · rintro ⟨r, hr, hlo, hhi⟩
    obtain ⟨o, c, hb, rfl⟩ := (hmem r).mp hr
    rw [hmin hb] at hlo
    exact ⟨o, c, hb, hlo, hhi⟩
  · rintro ⟨o, c, hb, hlo, hhi⟩
    refine ⟨_, (hmem _).mpr ⟨o, c, hb, rfl⟩, ?_, hhi⟩
    rw [hmin hb]
    exact hlo

theorem fencesAgree_iff : FencesAgree text ↔ (layout text).Agree := by
  constructor
  · intro h i hi
    rw [← lineStart_eq hi, ← inRange_iff, ← markedContent_iff hi]
    exact h i hi
  · intro h i hi
    rw [lineStart_eq hi, inRange_iff, markedContent_iff hi]
    exact h i hi

end Layout

/-! ## The rule that the inline scan takes -/

/-- A marker that is no part of a longer run, at the given position, with a title after it. -/
def RuleOf (text marker : Text) (markerChar : Char) (pos : ℕ) : Prop :=
  ∃ before after, text = before ++ marker ++ after ∧ byteLength before = pos ∧ before.getLast? ≠ some markerChar ∧
    after.head? ≠ some markerChar ∧ ['#', ' '] <+: trimStart after

/-- A rule that separates a note although other text is on its line. -/
def InlineRule (text : Text) (pos : ℕ) : Prop := ∃ c ∈ ['-', '*', '_'], RuleOf text [c, c, c] c pos

/-- The first of the positions that were found, with some text. -/
structure Best (found : ℕ → Prop) (best : Option (ℕ × Text)) : Prop where
  le : ∀ pos, found pos → ∃ first content, best = some (first, content) ∧ first ≤ pos
  found : ∀ pos content, best = some (pos, content) → found pos

section Inline

variable {text marker : Text} {markerChar : Char} {ranges : List (ℕ × ℕ)} {best : Option (ℕ × Text)}
  {found found' : ℕ → Prop}

theorem Best.congr (h : Best found best) (heq : ∀ pos, found pos ↔ found' pos) : Best found' best :=
  ⟨fun pos hpos => h.le pos ((heq pos).mpr hpos), fun pos content hbest => (heq pos).mp (h.found pos content hbest)⟩

/-- A match at a position that is not taken. -/
theorem Best.skip (h : Best found best) {idx : ℕ} {P : Prop} (hP : ¬ P) :
    Best (fun pos => found pos ∨ pos = idx ∧ P) best :=
  h.congr fun _ => (or_iff_left fun hpos => hP hpos.2).symm

variable (markerChar ranges) in
/-- What the loop does with one match. -/
theorem Best.considerMatch (h : Best found best) {idx : ℕ} (hidx : idx ∈ matchIndices marker text) :
    ∃ best', considerMatch text ranges marker markerChar best idx = some best' ∧
      Best (fun pos => found pos ∨ pos = idx ∧ (RuleOf text marker markerChar idx ∧ ¬ ∃ r ∈ ranges, r.1 ≤ idx ∧ idx < r.2))
        best' := by
  obtain ⟨a, b, htext, hlen⟩ := exists_of_mem_matchIndices hidx
  -- a byte position determines the text before it
  have hrule : RuleOf text marker markerChar idx ↔
      a.getLast? ≠ some markerChar ∧ b.head? ≠ some markerChar ∧ ['#', ' '] <+: trimStart b := by
    constructor
    · rintro ⟨a', b', htext', hlen', hrest⟩
      rw [htext, List.append_assoc, List.append_assoc] at htext'
      obtain ⟨rfl, heq⟩ := append_inj_byteLength htext' (hlen.trans hlen'.symm)
      obtain rfl := List.append_cancel_left heq
      exact hrest
    · exact fun hrest => ⟨a, b, htext, hlen, hrest⟩
  have hbefore : sliceTo idx text = some a := by
    rw [htext, ← hlen, List.append_assoc]
    exact sliceTo_append a _
  have hafter : sliceFrom (idx + byteLength marker) text = some b := by
    rw [htext, ← hlen, ← byteLength_append]
    exact sliceFrom_append (a ++ marker) b
  have hany : (ranges.any fun r => r.1 ≤ idx && idx < r.2) = true ↔ ∃ r ∈ ranges, r.1 ≤ idx ∧ idx < r.2 := by
    simp
  rw [NoteFences.considerMatch]
  split
  -- inside a fence, or part of a longer run, or without a title: the match is passed over
  · rename_i hin
    exact ⟨best, rfl, h.skip fun hP => hP.2 (hany.mp hin)⟩
  rename_i hout
  rw [hany] at hout
  simp only [hbefore, hafter, Option.bind_eq_bind, Option.bind_some, Option.pure_def]
  split
  · rename_i hrun
    refine ⟨best, rfl, h.skip ?_⟩
    rintro ⟨hP, -⟩
    rw [hrule] at hP
    exact hrun.elim hP.1 hP.2.1
  rename_i hrun
  rw [not_or] at hrun
  split
  · rename_i htitle
    refine ⟨best, rfl, h.skip ?_⟩
    rintro ⟨hP, -⟩
    exact htitle (hrule.mp hP).2.2
  rename_i htitle
  have hfound : RuleOf text marker markerChar idx ∧ ¬ ∃ r ∈ ranges, r.1 ≤ idx ∧ idx < r.2 :=
    ⟨hrule.mpr ⟨hrun.1, hrun.2, not_not.mp htitle⟩, hout⟩
  split
  · rename_i first content
    split
    · -- an earlier rule stays
      rename_i hle
      refine ⟨_, rfl, ?_, ?_⟩
      · rintro pos (hpos | ⟨rfl, -⟩)
        · exact h.le pos hpos
        · exact ⟨first, content, rfl, hle⟩
      · exact fun pos content hbest => .inl (h.found pos content hbest)
    · rename_i hlt
      refine ⟨_, rfl, ?_, ?_⟩
      · rintro pos (hpos | ⟨rfl, -⟩)
        · obtain ⟨first', content', heq, hle⟩ := h.le pos hpos
          obtain ⟨rfl, -⟩ := Prod.mk.inj (Option.some.inj heq)
          exact ⟨idx, _, rfl, by omega⟩
        · exact ⟨_, _, rfl, Nat.le_refl _⟩
      · intro pos content' hbest
        obtain ⟨rfl, -⟩ := Prod.mk.inj (Option.some.inj hbest)
        exact .inr ⟨rfl, hfound⟩
  · refine ⟨_, rfl, ?_, ?_⟩
    · rintro pos (hpos | ⟨rfl, -⟩)
      · obtain ⟨first, content, heq, -⟩ := h.le pos hpos
        exact absurd heq (by simp)
      · exact ⟨_, _, rfl, Nat.le_refl _⟩
    · intro pos content hbest
      obtain ⟨rfl, -⟩ := Prod.mk.inj (Option.some.inj hbest)
      exact .inr ⟨rfl, hfound⟩

variable (markerChar ranges) in
/-- What the inner loop does. -/
theorem Best.foldlM (h : Best found best) {idxs : List ℕ} (hidxs : ∀ idx ∈ idxs, idx ∈ matchIndices marker text) :
    ∃ best', idxs.foldlM (NoteFences.considerMatch text ranges marker markerChar) best = some best' ∧
      Best (fun pos => found pos ∨
        pos ∈ idxs ∧ (RuleOf text marker markerChar pos ∧ ¬ ∃ r ∈ ranges, r.1 ≤ pos ∧ pos < r.2)) best' := by
  induction idxs generalizing best found with
  | nil => exact ⟨best, rfl, h.congr fun pos => by simp⟩
  | cons idx idxs ih =>
    obtain ⟨hidx, hrest⟩ := List.forall_mem_cons.mp hidxs
    obtain ⟨best₁, hstep, h₁⟩ := h.considerMatch markerChar ranges hidx
    obtain ⟨best₂, hrun, h₂⟩ := ih h₁ hrest
    refine ⟨best₂, ?_, h₂.congr ?_⟩
    · rw [List.foldlM_cons, hstep]
      exact hrun
    · intro pos
      rw [List.mem_cons, or_assoc, or_and_right]
      apply or_congr_right
      apply or_congr_left
      constructor
      · rintro ⟨rfl, hP⟩
        exact ⟨rfl, hP⟩
      · rintro ⟨rfl, hP⟩
        exact ⟨rfl, hP⟩

/-- The matches of a marker are the rules of its character, and more. -/
theorem mem_matchIndices_of_ruleOf {c : Char} (h : RuleOf text [c, c, c] c pos) :
    pos ∈ matchIndices [c, c, c] text := by
  obtain ⟨a, b, rfl, rfl, hlast, -, -⟩ := h
  exact mem_matchIndices_replicate (k := 2) hlast

/-- The slices of the inline scan are in the text and at the beginning of characters, and it takes the first rule that is
in no range. -/
theorem inlineBest_spec (text : Text) :
    ∃ best, inlineBest text = some best ∧ Best (fun pos => InlineRule text pos ∧ ¬ InRange text pos) best := by
  have hmarker : ∀ (c : Char) {found : ℕ → Prop} {best : Option (ℕ × Text)}, Best found best →
      ∃ best', (matchIndices [c, c, c] text).foldlM
          (NoteFences.considerMatch text (computeFenceRanges text) [c, c, c] c) best = some best' ∧
        Best (fun pos => found pos ∨ RuleOf text [c, c, c] c pos ∧ ¬ InRange text pos) best' := by
    intro c found best h
    obtain ⟨best', hrun, h'⟩ := h.foldlM c (computeFenceRanges text)
      fun (idx : ℕ) (hidx : idx ∈ matchIndices [c, c, c] text) => hidx
    refine ⟨best', hrun, h'.congr fun pos => or_congr_right ?_⟩
    exact and_iff_right_of_imp fun hP => mem_matchIndices_of_ruleOf hP.1
  have hnone : Best (fun _ => False) none := ⟨fun _ h => h.elim, fun _ _ h => absurd h (by simp)⟩
  obtain ⟨best₁, hrun₁, h₁⟩ := hmarker '-' hnone
  obtain ⟨best₂, hrun₂, h₂⟩ := hmarker '*' h₁
  obtain ⟨best₃, hrun₃, h₃⟩ := hmarker '_' h₂
  refine ⟨best₃, ?_, h₃.congr ?_⟩
  · simp only [inlineBest, markers, List.foldlM_cons, List.foldlM_nil, List.head?_cons, Option.bind_eq_bind,
      Option.bind_some, hrun₁, hrun₂, hrun₃, Option.pure_def]
  · intro pos
    simp only [InlineRule, List.mem_cons, List.not_mem_nil, or_false, exists_eq_or_imp, exists_eq_left, false_or]
    rw [or_and_right, or_and_right, or_assoc]

end Inline

/-! ## When the two scans agree -/

/-- A position in the last line of a fenced block, whose distance to the line after it is at most the number of carriage
returns that are dropped up to there. -/
def NearClosing (text : Text) (pos : ℕ) : Prop :=
  ∃ i l l', (lines text)[i]? = some l ∧ (lines text)[i + 1]? = some l' ∧ InsideFence text i ∧ isFenceLine l = false ∧
    isFenceLine l' = true ∧ lineStart text i ≤ pos ∧ pos < lineStart text (i + 1) ∧
    lineStart text (i + 1) ≤ pos + crlfs text (i + 1)

/-- A position outside the fenced blocks, and not that near to the end of a line that opens one. -/
def OutsideFences (text : Text) (pos : ℕ) : Prop :=
  ∀ i l, (lines text)[i]? = some l → lineStart text i ≤ pos → pos < lineStart text (i + 1) →
    ¬ (InsideFence text i ∧ isFenceLine l = false) ∧
    (isFenceLine l = true → ∀ l', (lines text)[i + 1]? = some l' → InsideFence text (i + 1) → isFenceLine l' = false →
      pos + crlfs text (i + 1) < lineStart text (i + 1))

/-- The byte positions of the inline scan find the fenced blocks. -/
structure OffsetsFit (text : Text) : Prop where
  /-- A fence line comes after every line in a block. -/
  closed : ∀ i l, (lines text)[i]? = some l → InsideFence text i → isFenceLine l = false →
    ∃ j l', i < j ∧ (lines text)[j]? = some l' ∧ isFenceLine l' = true
  /-- The line that opens a block with content, and the last line of the content, have as many bytes as carriage returns
  are dropped before them. -/
  long : ∀ i l l', (lines text)[i]? = some l → (lines text)[i + 1]? = some l' → InsideFence text (i + 1) →
    isFenceLine l ≠ isFenceLine l' → crlfs text i ≤ byteLength l
  /-- An inline rule at the very end of a block comes after one outside the blocks. -/
  rules : ∀ pos, InlineRule text pos → NearClosing text pos → ∃ pos' < pos, InlineRule text pos' ∧ OutsideFences text pos'

section Agreement

variable {text : Text}

theorem layout_content_iff {l : Text} (h : (lines text)[i]? = some l) :
    (layout text).Content i ↔ InsideFence text i ∧ isFenceLine l = false := by
  rw [Layout.Content, layout_fence h, layout_inside (Nat.le_of_lt (lt_count_iff.mpr ⟨l, h⟩))]

theorem layout_closed_iff : (layout text).Closed ↔ ∀ i l, (lines text)[i]? = some l → InsideFence text i →
    isFenceLine l = false → ∃ j l', i < j ∧ (lines text)[j]? = some l' ∧ isFenceLine l' = true := by
  constructor
  · intro h i l hl hinside hfence
    obtain ⟨j, hij, hj, hjfence⟩ := h i (lt_count_iff.mpr ⟨l, hl⟩) ((layout_content_iff hl).mpr ⟨hinside, hfence⟩)
    obtain ⟨l', hl', hfence'⟩ := fence_eq_true_iff.mp hjfence
    exact ⟨j, l', hij, hl', hfence'⟩
  · intro h i hi hcontent
    obtain ⟨l, hl⟩ := lt_count_iff.mp hi
    obtain ⟨hinside, hfence⟩ := (layout_content_iff hl).mp hcontent
    obtain ⟨j, l', hij, hl', hfence'⟩ := h i l hl hinside hfence
    exact ⟨j, hij, lt_count_iff.mpr ⟨l', hl'⟩, fence_eq_true_iff.mpr ⟨l', hl', hfence'⟩⟩

theorem layout_long_iff : (layout text).Long ↔ ∀ i l l', (lines text)[i]? = some l → (lines text)[i + 1]? = some l' →
    InsideFence text (i + 1) → isFenceLine l ≠ isFenceLine l' → crlfs text i ≤ byteLength l := by
  constructor
  · intro h i l l' hl hl' hinside hne
    have hi : i + 1 < (layout text).count := lt_count_iff.mpr ⟨l', hl'⟩
    rw [← layout_len hl]
    apply h i hi ((layout_inside (Nat.le_of_lt hi)).mpr hinside)
    rwa [layout_fence hl, layout_fence hl']
  · intro h i hi hinside hne
    obtain ⟨l', hl'⟩ := lt_count_iff.mp hi
    obtain ⟨l, hl⟩ := lt_count_iff.mp (Nat.lt_of_succ_lt hi)
    rw [layout_fence hl, layout_fence hl'] at hne
    rw [layout_len hl]
    exact h i l l' hl hl' ((layout_inside (Nat.le_of_lt hi)).mp hinside) hne

theorem lineStart_succ_le (h : i < (layout text).count) :
    lineStart text (i + 1) ≤ (layout text).start (i + 1) := by
  obtain ⟨l, hl⟩ := lt_count_iff.mp h
  obtain ⟨raw, hraw, rfl⟩ := exists_raw hl
  have hlen := byteLength_raw_le hraw
  have hcrlfs := crlfs_succ text i hraw
  have hdropped : ∀ j, (layout text).dropped j = crlfs text j := fun _ => rfl
  rw [lineStart_succ hraw, lineStart_eq h, Layout.start, Layout.start, Layout.offset_succ, layout_len hl, hdropped,
    hdropped, hcrlfs]
  omega

theorem lineStart_count (text : Text) : lineStart text (layout text).count = byteLength text := by
  have hcount : (layout text).count = (linesInclusive text).length := by
    rw [← List.length_map chomp, ← lines_eq_map_chomp]
    rfl
  rw [lineStart, hcount, List.take_length, flatten_linesInclusive]

/-- A position in the text is in a line. -/
theorem exists_at (h : pos < byteLength text) : ∃ i, (layout text).At i pos := by
  have hlines : ∀ n ≤ (layout text).count, pos < lineStart text n →
      ∃ i < (layout text).count, lineStart text i ≤ pos ∧ pos < lineStart text (i + 1) := by
    intro n
    induction n with
    | zero => exact fun _ hlt => absurd hlt (Nat.not_lt_zero pos)
    | succ n ih =>
      intro hn hlt
      rcases Nat.lt_or_ge pos (lineStart text n) with hbefore | hafter
      · exact ih (by omega) hbefore
      · exact ⟨n, by omega, hafter, hlt⟩
  obtain ⟨i, hi, hlo, hhi⟩ := hlines (layout text).count (Nat.le_refl _) (by rwa [lineStart_count])
  exact ⟨i, hi, by rwa [← lineStart_eq hi], Nat.lt_of_lt_of_le hhi (lineStart_succ_le hi)⟩

theorem lt_lineStart_of_at (h : pos < byteLength text) (hat : (layout text).At i pos) :
    pos < lineStart text (i + 1) := by
  obtain ⟨hi, -, hhi⟩ := hat
  rcases Nat.lt_or_eq_of_le hi with hlt | hlast
  · rwa [lineStart_eq hlt]
  · rw [← Nat.succ_eq_add_one, hlast, lineStart_count]
    exact h

theorem InlineRule.lt (h : InlineRule text pos) : pos < byteLength text := by
  obtain ⟨c, -, a, b, htext, hlen, -⟩ := h
  have hpos := c.utf8Size_pos
  rw [htext]
  simp only [byteLength_append, byteLength_cons]
  omega

theorem near_iff : (layout text).Late pos ↔ NearClosing text pos := by
  constructor
  · rintro ⟨i, hcontent, ⟨hi, hlo, hhi⟩, hi', hfence, hlate⟩
    obtain ⟨l', hl'⟩ := lt_count_iff.mp hi'
    obtain ⟨l, hl⟩ := lt_count_iff.mp hi
    obtain ⟨hinside, hline⟩ := (layout_content_iff hl).mp hcontent
    rw [← lineStart_eq hi] at hlo
    rw [← lineStart_eq hi'] at hhi hlate
    rw [layout_fence hl'] at hfence
    exact ⟨i, l, l', hl, hl', hinside, hline, hfence, hlo, hhi, hlate⟩
  · rintro ⟨i, l, l', hl, hl', hinside, hline, hfence, hlo, hhi, hlate⟩
    have hi : i < (layout text).count := lt_count_iff.mpr ⟨l, hl⟩
    have hi' : i + 1 < (layout text).count := lt_count_iff.mpr ⟨l', hl'⟩
    rw [lineStart_eq hi] at hlo
    rw [lineStart_eq hi'] at hhi hlate
    exact ⟨i, (layout_content_iff hl).mpr ⟨hinside, hline⟩, ⟨hi, hlo, hhi⟩, hi',
      (layout_fence hl').trans hfence, hlate⟩

theorem ahead_iff (hpos : pos < byteLength text) : (layout text).Ahead pos ↔ OutsideFences text pos := by
  constructor
  · intro h i l hl hlo hhi
    have hi : i < (layout text).count := lt_count_iff.mpr ⟨l, hl⟩
    rw [lineStart_eq hi] at hlo
    obtain ⟨hnot, hopening⟩ := h i ⟨hi, hlo, Nat.lt_of_lt_of_le hhi (lineStart_succ_le hi)⟩
    rw [layout_content_iff hl] at hnot
    refine ⟨hnot, ?_⟩
    intro hfence l' hl' hinside hfence'
    have hi' : i + 1 < (layout text).count := lt_count_iff.mpr ⟨l', hl'⟩
    rw [lineStart_eq hi']
    exact hopening ((layout_fence hl).trans hfence) hi' ((layout_content_iff hl').mpr ⟨hinside, hfence'⟩)
  · intro h i hat
    have hhi := lt_lineStart_of_at hpos hat
    obtain ⟨hi, hlo, -⟩ := hat
    obtain ⟨l, hl⟩ := lt_count_iff.mp hi
    rw [← lineStart_eq hi] at hlo
    obtain ⟨hnot, hopening⟩ := h i l hl hlo hhi
    rw [layout_content_iff hl]
    refine ⟨hnot, ?_⟩
    intro hfence hi' hcontent
    obtain ⟨l', hl'⟩ := lt_count_iff.mp hi'
    obtain ⟨hinside, hfence'⟩ := (layout_content_iff hl').mp hcontent
    rw [← lineStart_eq hi']
    exact hopening ((layout_fence hl).symm.trans hfence) l' hl' hinside hfence'

/-- What the inline scan takes is the first rule that is in no range. -/
theorem inlineOutside_iff : InlineOutside text ↔
    ∀ pos, InlineRule text pos → ¬ (layout text).InRange pos →
      (∀ pos', InlineRule text pos' → ¬ (layout text).InRange pos' → pos ≤ pos') →
      ∀ i, (layout text).At i pos → ¬ (layout text).Content i := by
  obtain ⟨best, hbest, hspec⟩ := inlineBest_spec text
  constructor
  · intro h pos hrule hnot hmin i hat
    obtain ⟨first, content, rfl, hle⟩ := hspec.le pos ⟨hrule, by rwa [inRange_iff]⟩
    obtain ⟨hfirst, hfirstNot⟩ := hspec.found first content rfl
    have hge := hmin first hfirst (by rwa [← inRange_iff])
    obtain rfl : first = pos := by omega
    have hhi := lt_lineStart_of_at hrule.lt hat
    rw [← markedContent_iff hat.1]
    exact h first content hbest i hat.1 (by rw [lineStart_eq hat.1]; exact hat.2.1) hhi
  · intro h pos content hpos i hi hlo hhi
    rw [hbest, Option.some.injEq] at hpos
    obtain ⟨hrule, hnot⟩ := hspec.found pos content hpos
    rw [markedContent_iff hi]
    apply h pos hrule (by rwa [← inRange_iff]) _ i
    · exact ⟨hi, by rwa [← lineStart_eq hi], Nat.lt_of_lt_of_le hhi (lineStart_succ_le hi)⟩
    · intro pos' hrule' hnot'
      obtain ⟨first, content', heq, hle⟩ := hspec.le pos' ⟨hrule', by rwa [inRange_iff]⟩
      obtain ⟨rfl, -⟩ := Prod.mk.inj (Option.some.inj (hpos.symm.trans heq))
      exact hle

end Agreement

/-- The two scans agree on the fenced blocks, and no rule inside of one is taken, exactly when the byte positions of the
inline scan fit. -/
theorem fences_agree_iff (text : Text) : FencesAgree text ∧ InlineOutside text ↔ OffsetsFit text := by
  rw [fencesAgree_iff, Layout.agree_iff, inlineOutside_iff]
  have hrules : ∀ pos, InlineRule text pos → ∃ i, (layout text).At i pos := fun pos hrule => exists_at hrule.lt
  constructor
  · rintro ⟨⟨hclosed, hlong⟩, houtside⟩
    refine ⟨layout_closed_iff.mp hclosed, layout_long_iff.mp hlong, ?_⟩
    intro pos hrule hnear
    obtain ⟨pos', hlt, hrule', hahead⟩ :=
      (Layout.first_outside_iff hclosed hlong hrules).mp houtside pos hrule (near_iff.mpr hnear)
    exact ⟨pos', hlt, hrule', (ahead_iff hrule'.lt).mp hahead⟩
  · intro h
    have hclosed := layout_closed_iff.mpr h.closed
    have hlong := layout_long_iff.mpr h.long
    refine ⟨⟨hclosed, hlong⟩, (Layout.first_outside_iff hclosed hlong hrules).mpr ?_⟩
    intro pos hrule hlate
    obtain ⟨pos', hlt, hrule', houtside⟩ := h.rules pos hrule (near_iff.mp hlate)
    exact ⟨pos', hlt, hrule', (ahead_iff hrule'.lt).mpr houtside⟩

/-- A fence that is not closed: the standalone scan takes the line after it for its content, and the inline scan returns a
note that starts there. -/
def unclosedFence : Text := "```\n--- # Title".toList

/-- A carriage return before an empty block: the range ends where its line starts. -/
def shiftedFence : Text := "\r\n```\n\n```\n".toList

theorem fences_disagree :
    ¬ FencesAgree unclosedFence ∧ ¬ InlineOutside unclosedFence ∧ ¬ FencesAgree shiftedFence ∧
      inFence shiftedFence = [false, true, true, false] ∧ computeFenceRanges shiftedFence = [(5, 6)] ∧
      lineStart shiftedFence 2 = 6 ∧ extractNoteAfterInlineHr unclosedFence = some (some "# Title".toList) := by
  have hmarked : MarkedContent unclosedFence 1 := ⟨by decide, _, rfl, by decide⟩
  have hranges : computeFenceRanges unclosedFence = [] := by decide
  have hmarked' : MarkedContent shiftedFence 2 := ⟨by decide, _, rfl, by decide⟩
  have hranges' : computeFenceRanges shiftedFence = [(5, 6)] := by decide
  have hstart : lineStart shiftedFence 2 = 6 := by decide
  have hbest : inlineBest unclosedFence = some (some (4, "# Title".toList)) := by decide
  refine ⟨?_, ?_, ?_, by decide, hranges', hstart, by decide⟩
  · intro h
    obtain ⟨r, hr, -⟩ := (h 1 (by decide)).mpr hmarked
    rw [hranges] at hr
    exact absurd hr List.not_mem_nil
  · intro h
    exact h 4 _ hbest 1 (by decide) (by decide) (by decide) hmarked
  · intro h
    obtain ⟨r, hr, hlo, hhi⟩ := (h 2 (by decide)).mpr hmarked'
    rw [hranges', List.mem_singleton] at hr
    subst hr
    rw [hstart] at hhi
    exact absurd hhi (Nat.lt_irrefl 6)

end Builderbot.Staged.NoteFences
