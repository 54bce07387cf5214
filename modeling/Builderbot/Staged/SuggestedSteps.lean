import Builderbot.Git.Types
import Builderbot.Lib.ByteSearch

/-!
# Removing the suggested next steps from a message

`strip_suggested_next_steps_blocks` of `apps/staged/src-tauri/src/session_runner.rs` copies a message without its fenced
blocks of suggested next steps. It works with byte offsets into the message, and so do the two searches for the fences.

`Pieces` says what is between the blocks, without offsets; `stripSuggestedNextStepsBlocks_spec` says that the loop ends,
makes no slice that panics, and returns the pieces.
-/

namespace Builderbot.Staged.SuggestedSteps

open Builderbot.Lib.Text Builderbot.Lib.ByteText Builderbot.Lib.ByteSearch Builderbot.Git

def marker : Text := "```suggested-next-steps".toList

def fence : Text := ['`', '`', '`']

/-- The test of `find_suggested_next_steps_opening_fence`: only white space up to the end of the line, which has an end. -/
def acceptOpening (text marker : Text) (abs : ℕ) : Except Stop Bool := do
  let afterMarker ← orPanic (sliceFrom (abs + byteLength marker) text)
  match find ['\n'] afterMarker with
  | some newline => return (trim (← orPanic (sliceTo newline afterMarker))).isEmpty
  | none => return false

def findSuggestedNextStepsOpeningFence (fuel : ℕ) (text marker : Text) : Except Stop (Option ℕ) :=
  searchFrom text marker (acceptOpening text marker) fuel 0

/-- The position is 0, or the byte before it is a line feed. -/
def atLineStart (text : Text) (abs : ℕ) : Except Stop Bool :=
  if abs = 0 then .ok true else (orPanic (Lib.Utf8.encode text)[abs - 1]?).map (· == 10)

/-- The test of `find_closing_fence`: at the start of a line, and only white space up to its end. -/
def acceptClosing (text : Text) (abs : ℕ) : Except Stop Bool := do
  if ← atLineStart text abs then
    let after ← orPanic (sliceFrom (abs + byteLength fence) text)
    if after.isEmpty then return true
    match find ['\n'] after with
    | some nl => return (trim (← orPanic (sliceTo nl after))).isEmpty
    | none => return (trim after).isEmpty
  else return false

def findClosingFence (fuel : ℕ) (text : Text) : Except Stop (Option ℕ) :=
  searchFrom text fence (acceptClosing text) fuel 0

/-- The variables of the loop. -/
structure StripState where
  output : Text
  lastCopied : ℕ
  searchFrom : ℕ
  removedAny : Bool

/-- The loop, for at most the given number of turns; its two searches make at most `fuel` turns. -/
def stripLoop (fuel : ℕ) (text : Text) : ℕ → StripState → Except Stop StripState
  | 0, _ => .error .running
  | turns + 1, st =>
    if st.searchFrom < byteLength text then do
      match ← findSuggestedNextStepsOpeningFence fuel (← orPanic (sliceFrom st.searchFrom text)) marker with
      | none => return st
      | some relPos =>
        let startPos := st.searchFrom + relPos
        let blockStart := startPos + byteLength marker
        match find ['\n'] (← orPanic (sliceFrom blockStart text)) with
        | none => return st
        | some newlinePos =>
          let contentStart := blockStart + newlinePos + 1
          match ← findClosingFence fuel (← orPanic (sliceFrom contentStart text)) with
          | none => return st
          | some endPos =>
            let closingStart := contentStart + endPos
            let closing ← orPanic (sliceFrom closingStart text)
            let afterClosing := match find ['\n'] closing with
              | some newline => closingStart + newline + 1
              | none => byteLength text
            let piece ← orPanic (slice st.lastCopied startPos text)
            stripLoop fuel text turns ⟨st.output ++ piece, afterClosing, afterClosing, true⟩
    else return st

def stripSuggestedNextStepsBlocks (fuel : ℕ) (text : Text) : Except Stop (Option Text) := do
  let st ← stripLoop fuel text fuel ⟨[], 0, 0, false⟩
  if st.removedAny then return some (st.output ++ (← orPanic (sliceFrom st.lastCopied text)))
  else return none

/-! ## The blocks of a text -/

def Blank (s : Text) : Prop := ∀ c ∈ s, isWhiteSpace c = true

/-- A line with its terminator. -/
def IsLine (l : Text) : Prop := ∃ t, '\n' ∉ t ∧ l = t ++ ['\n']

/-- A fence and white space, which may end with the terminator. -/
def IsClosingLine (l : Text) : Prop := ∃ ws, l = fence ++ ws ∧ Blank ws

/-- A block of suggested next steps with the text after it: the marker, white space to the end of its line, and the lines
up to the first closing line, which needs no terminator at the end of the text. -/
inductive IsBlock : Text → Text → Prop where
  | intro {ws closing rest : Text} {body : List Text} (hws : '\n' ∉ ws) (hblank : Blank ws)
      (hbody : ∀ l ∈ body, IsLine l ∧ ¬ IsClosingLine l) (hclosing : IsClosingLine closing)
      (hend : IsLine closing ∨ '\n' ∉ closing ∧ rest = []) :
      IsBlock (marker ++ ws ++ '\n' :: (body.flatten ++ closing)) rest

def BeginsBlock (s : Text) : Prop := ∃ block rest, s = block ++ rest ∧ IsBlock block rest

/-- The pieces of a text around its blocks, from left to right: each block is the first one after the last. -/
inductive Pieces : Text → List Text → Prop where
  | last {text : Text} (hnone : ∀ a b, text = a ++ b → ¬ BeginsBlock b) : Pieces text [text]
  | block {text a block rest : Text} {pieces : List Text}
      (hfirst : FirstSplit (fun _ => BeginsBlock) text a (block ++ rest)) (hblock : IsBlock block rest)
      (hrest : Pieces rest pieces) : Pieces text (a :: pieces)

/-! ## The two searches -/

/-- An opening fence begins here: the line after the marker is blank and has an end. -/
def OpensAt (_ b : Text) : Prop := ∃ ws r, b = marker ++ (ws ++ '\n' :: r) ∧ '\n' ∉ ws ∧ Blank ws

/-- A closing fence begins here: a line starts, and it is blank after the fence. -/
def ClosesAt (a b : Text) : Prop :=
  (a = [] ∨ a.getLast? = some '\n') ∧ ∃ ws r, b = fence ++ (ws ++ r) ∧ '\n' ∉ ws ∧ Blank ws ∧ (r = [] ∨ r.head? = some '\n')

theorem isEmpty_trim_iff {s : Text} : (trim s).isEmpty = true ↔ Blank s := by
  rw [List.isEmpty_iff]
  exact trim_eq_nil_iff

/-- Two ways to split a text at its first line feed. -/
theorem append_newline_inj {ws ws' r r' : Text} (hws : '\n' ∉ ws) (hws' : '\n' ∉ ws')
    (h : ws ++ '\n' :: r = ws' ++ '\n' :: r') : ws = ws' ∧ r = r' := by
  rcases List.append_eq_append_iff.mp h with ⟨m, rfl, hm⟩ | ⟨m, rfl, hm⟩
  · cases m with
    | nil => exact ⟨by simp, (List.cons.inj hm).2⟩
    | cons c m =>
      rw [List.cons_append, List.cons.injEq] at hm
      exact absurd (by simp [← hm.1]) hws'
  · cases m with
    | nil => exact ⟨by simp, (List.cons.inj hm).2.symm⟩
    | cons c m =>
      rw [List.cons_append, List.cons.injEq] at hm
      exact absurd (by simp [← hm.1]) hws

section Searches

variable {text a b : Text}

theorem acceptOpening_spec (h : text = a ++ marker ++ b) : ∃ r, acceptOpening text marker (byteLength a) = .ok r ∧
    (r = true ↔ OpensAt a (marker ++ b)) := by
  have hslice : sliceFrom (byteLength a + byteLength marker) text = some b := by
    rw [h, ← byteLength_append]
    exact sliceFrom_append _ b
  simp only [acceptOpening, hslice, orPanic_some, bind, Except.bind]
  rcases find_newline_cases b with ⟨ws, r, hws, rfl, hfind⟩ | ⟨hnot, hfind⟩
  · rw [hfind]
    simp only [sliceTo_append, orPanic_some, pure, Except.pure]
    refine ⟨_, rfl, ?_⟩
    rw [isEmpty_trim_iff]
    constructor
    · exact fun hblank => ⟨ws, r, rfl, hws, hblank⟩
    · rintro ⟨ws', r', heq, hws', hblank⟩
      obtain ⟨rfl, -⟩ := append_newline_inj hws hws' (List.append_cancel_left heq)
      exact hblank
  · rw [hfind]
    refine ⟨false, rfl, iff_of_false Bool.false_ne_true ?_⟩
    rintro ⟨ws, r, heq, -, -⟩
    rw [List.append_cancel_left heq] at hnot
    exact hnot (by simp)

theorem marker_no_border : ∀ k < marker.length, 0 < k → ¬ marker.drop k <+: marker := by decide

/-- The first opening fence is found. -/
theorem findOpening_spec {fuel : ℕ} (hfuel : byteLength text < fuel) :
    ∃ r, findSuggestedNextStepsOpeningFence fuel text marker = .ok r ∧ Finds OpensAt text r := by
  apply searchFrom_spec (by decide) _ acceptOpening_spec _ hfuel
  · rintro a b ⟨ws, r, rfl, -, -⟩
    exact List.prefix_append _ _
  · rintro a b a' b' htext htext' ⟨ws, r, rfl, -, -⟩ hlt
    rw [← List.append_assoc] at htext'
    exact le_of_no_border marker_no_border (htext.symm.trans htext') hlt

theorem atLineStart_spec (h : text = a ++ fence ++ b) : ∃ r, atLineStart text (byteLength a) = .ok r ∧
    (r = true ↔ a = [] ∨ a.getLast? = some '\n') := by
  rw [atLineStart]
  split
  · rename_i hzero
    exact ⟨true, rfl, iff_of_true rfl (.inl (byteLength_eq_zero.mp hzero))⟩
  · rename_i hzero
    have hne : a ≠ [] := fun hnil => hzero (byteLength_eq_zero.mpr hnil)
    obtain ⟨x, hx, hiff⟩ := byte_before hne (fence ++ b)
    rw [← List.append_assoc, ← h] at hx
    rw [hx]
    refine ⟨x == 10, rfl, ?_⟩
    rw [beq_iff_eq, hiff, or_iff_right hne]

theorem acceptClosing_spec (h : text = a ++ fence ++ b) : ∃ r, acceptClosing text (byteLength a) = .ok r ∧
    (r = true ↔ ClosesAt a (fence ++ b)) := by
  have hslice : sliceFrom (byteLength a + byteLength fence) text = some b := by
    rw [h, ← byteLength_append]
    exact sliceFrom_append _ b
  obtain ⟨start, hat, hatIff⟩ := atLineStart_spec h
  simp only [acceptClosing, hat, hslice, orPanic_some, bind, Except.bind, pure, Except.pure]
  cases start with
  | false =>
    refine ⟨false, rfl, iff_of_false Bool.false_ne_true ?_⟩
    exact fun hcloses => Bool.false_ne_true (hatIff.mpr hcloses.1)
  | true =>
    rw [if_pos rfl]
    have hcloses : ClosesAt a (fence ++ b) ↔
        ∃ ws r, b = ws ++ r ∧ '\n' ∉ ws ∧ Blank ws ∧ (r = [] ∨ r.head? = some '\n') := by
      rw [ClosesAt, and_iff_right (hatIff.mp rfl)]
      simp only [List.append_cancel_left_eq]
    rw [hcloses]
    -- the rest of the line ends at a line feed or at the end of the text
    rcases find_newline_cases b with ⟨ws, r, hws, rfl, hfind⟩ | ⟨hnot, hfind⟩
    · have hne : ¬ (ws ++ '\n' :: r).isEmpty = true := by simp
      rw [if_neg hne, hfind]
      simp only [sliceTo_append, orPanic_some]
      refine ⟨_, rfl, ?_⟩
      rw [isEmpty_trim_iff]
      constructor
      · exact fun hblank => ⟨ws, '\n' :: r, rfl, hws, hblank, .inr rfl⟩
      · rintro ⟨ws', r', heq, hws', hblank, rfl | hr'⟩
        · rw [List.append_nil] at heq
          exact absurd (by simp [← heq]) hws'
        · obtain ⟨r', rfl⟩ := List.head?_eq_some_iff.mp hr'
          obtain ⟨rfl, -⟩ := append_newline_inj hws hws' heq
          exact hblank
    · rw [hfind]
      have hiff : Blank b ↔ ∃ ws r, b = ws ++ r ∧ '\n' ∉ ws ∧ Blank ws ∧ (r = [] ∨ r.head? = some '\n') := by
        constructor
        · exact fun hblank => ⟨b, [], by simp, hnot, hblank, .inl rfl⟩
        · rintro ⟨ws, r, rfl, -, hblank, rfl | hr⟩
          · rwa [List.append_nil]
          · obtain ⟨r, rfl⟩ := List.head?_eq_some_iff.mp hr
            exact absurd (by simp) hnot
      rw [← hiff]
      split
      · rename_i hempty
        refine ⟨true, rfl, iff_of_true rfl ?_⟩
        rw [List.isEmpty_iff.mp hempty]
        exact fun c hc => absurd hc List.not_mem_nil
      · exact ⟨_, rfl, isEmpty_trim_iff⟩

/-- The first closing fence is found. -/
theorem findClosing_spec {fuel : ℕ} (hfuel : byteLength text < fuel) :
    ∃ r, findClosingFence fuel text = .ok r ∧ Finds ClosesAt text r := by
  apply searchFrom_spec (by decide) _ acceptClosing_spec _ hfuel
  · rintro a b ⟨-, ws, r, rfl, -⟩
    exact List.prefix_append _ _
  · rintro a b a' b' htext htext' ⟨hline, -⟩ hlt
    by_contra hnot
    -- a line does not start inside a fence
    rw [htext, List.append_assoc] at htext'
    obtain ⟨m, rfl, hm⟩ := exists_append_of_byteLength_le htext' (Nat.le_of_lt hlt)
    rw [byteLength_append] at hlt hnot
    obtain ⟨t, ht, -⟩ := exists_append_of_byteLength_le hm.symm (by omega)
    have hne : m ≠ [] := by
      rintro rfl
      rw [byteLength_nil] at hlt
      omega
    have hlast : (a ++ m).getLast? = some '\n' :=
      hline.resolve_left (List.append_ne_nil_of_right_ne_nil a hne)
    rw [List.getLast?_append_of_ne_nil a hne] at hlast
    have hmem : '\n' ∈ fence := by
      rw [ht]
      exact List.mem_append_left t (List.mem_of_getLast? hlast)
    exact absurd hmem (by decide)

end Searches

/-! ## Lines and blocks -/

/-- A line starts after the text. -/
def EndsLine (a : Text) : Prop := a = [] ∨ a.getLast? = some '\n'

variable {b : Text}

/-- A beginning of a text that ends a line contains the first line. -/
theorem exists_of_endsLine {w c m : Text} (hw : '\n' ∉ w) (h : w ++ '\n' :: c = m ++ b) (hm : m.getLast? = some '\n') :
    ∃ m', m = w ++ '\n' :: m' ∧ c = m' ++ b ∧ EndsLine m' := by
  rcases List.append_eq_append_iff.mp h with ⟨t, rfl, ht⟩ | ⟨t, rfl, ht⟩
  · cases t with
    | nil =>
      rw [List.append_nil] at hm
      exact absurd (List.mem_of_getLast? hm) hw
    | cons d t =>
      rw [List.cons_append, List.cons.injEq] at ht
      obtain ⟨rfl, rfl⟩ := ht
      refine ⟨t, rfl, rfl, ?_⟩
      cases t with
      | nil => exact .inl rfl
      | cons e t =>
        right
        rwa [List.getLast?_append_of_ne_nil _ (by simp), List.getLast?_cons_cons] at hm
  · exact absurd (List.mem_append_left t (List.mem_of_getLast? hm)) hw

theorem endsLine_cons {m : Text} (h : EndsLine m) (w : Text) : (w ++ '\n' :: m).getLast? = some '\n' := by
  rcases h with rfl | hlast
  · simp
  · cases m with
    | nil => exact absurd hlast (by simp)
    | cons d m => rw [List.getLast?_append_of_ne_nil _ (by simp), List.getLast?_cons_cons, hlast]

variable {a : Text}

/-- The lines of a text that ends a line. -/
theorem exists_lines (h : EndsLine a) : ∃ body : List Text, a = body.flatten ∧ ∀ l ∈ body, IsLine l := by
  induction hn : a.length using Nat.strong_induction_on generalizing a with
  | h n ih =>
    rcases h with rfl | hlast
    · exact ⟨[], rfl, fun l hl => absurd hl List.not_mem_nil⟩
    · obtain ⟨w, c, rfl, hw⟩ := List.eq_append_cons_of_mem (List.mem_of_getLast? hlast)
      obtain ⟨m, hm, -, hends⟩ := exists_of_endsLine hw (List.append_nil _).symm hlast
      obtain rfl := (List.cons.inj (List.append_cancel_left hm)).2
      obtain ⟨body, hbody, hlines⟩ := ih c.length (by rw [← hn]; simp; omega) hends rfl
      refine ⟨(w ++ ['\n']) :: body, by rw [List.flatten_cons, ← hbody]; simp, ?_⟩
      rw [List.forall_mem_cons]
      exact ⟨⟨w, hw, rfl⟩, hlines⟩

variable {body : List Text}

theorem endsLine_flatten (h : ∀ l ∈ body, IsLine l) : EndsLine body.flatten := by
  induction body with
  | nil => exact .inl rfl
  | cons l body ih =>
    rw [List.forall_mem_cons] at h
    obtain ⟨⟨t, -, rfl⟩, hbody⟩ := h
    right
    have hcons : ((t ++ ['\n']) :: body).flatten = t ++ '\n' :: body.flatten := by simp
    rw [hcons]
    exact endsLine_cons (ih hbody) t

/-- The lines that start in some lines. -/
theorem exists_line_of_endsLine (hbody : ∀ l ∈ body, IsLine l) {s : Text}
    (h : body.flatten ++ s = a ++ b) (ha : EndsLine a) (hlt : byteLength a < byteLength body.flatten) :
    ∃ l ∈ body, ∃ r, b = l ++ r := by
  induction body generalizing a with
  | nil => exact absurd hlt (Nat.not_lt_zero _)
  | cons l body ih =>
    rw [List.forall_mem_cons] at hbody
    obtain ⟨⟨t, ht, rfl⟩, hlines⟩ := hbody
    rcases ha with rfl | hlast
    · refine ⟨t ++ ['\n'], List.mem_cons_self, body.flatten ++ s, ?_⟩
      rw [← List.nil_append b, ← h]
      simp
    · have hcons : t ++ '\n' :: (body.flatten ++ s) = a ++ b := by
        rw [← h]
        simp
      obtain ⟨m, rfl, hm, hends⟩ := exists_of_endsLine ht hcons hlast
      have hlt' : byteLength m < byteLength body.flatten := by
        simp only [List.flatten_cons, byteLength_append, byteLength_cons, byteLength_nil] at hlt
        omega
      obtain ⟨l, hl, r, hr⟩ := ih hlines hm hends hlt'
      exact ⟨l, List.mem_cons_of_mem _ hl, r, hr⟩

theorem newline_notMem_fence : '\n' ∉ fence := by decide

variable {rest closing : Text}

/-- A closing line, at the start of a line, is a closing fence. -/
theorem closesAt_of_closingLine (ha : EndsLine a) (hclosing : IsClosingLine closing)
    (hend : IsLine closing ∨ '\n' ∉ closing ∧ rest = []) : ClosesAt a (closing ++ rest) := by
  obtain ⟨ws, rfl, hblank⟩ := hclosing
  refine ⟨ha, ?_⟩
  rcases hend with ⟨t, ht, heq⟩ | ⟨hnot, rfl⟩
  · have hne : ws ≠ [] := by
      rintro rfl
      rw [List.append_nil] at heq
      exact newline_notMem_fence (heq ▸ by simp)
    obtain ⟨ws', c, rfl⟩ := (List.eq_nil_or_concat ws).resolve_left hne
    rw [List.concat_eq_append, ← List.append_assoc] at heq
    obtain ⟨rfl, hc⟩ := List.append_inj' heq rfl
    obtain rfl : c = '\n' := by simpa using hc
    rw [List.mem_append, not_or] at ht
    refine ⟨ws', '\n' :: rest, by simp, ht.2, ?_, .inr rfl⟩
    exact fun c hc => hblank c (by simp [hc])
  · rw [List.mem_append, not_or] at hnot
    exact ⟨ws, [], by simp, hnot.2, hblank, .inl rfl⟩

/-- A closing fence begins a closing line. -/
theorem closingLine_of_closesAt (h : ClosesAt a b) :
    ∃ closing rest, b = closing ++ rest ∧ IsClosingLine closing ∧ (IsLine closing ∨ '\n' ∉ closing ∧ rest = []) := by
  obtain ⟨-, ws, r, rfl, hws, hblank, rfl | hr⟩ := h
  · refine ⟨fence ++ ws, [], by simp, ⟨ws, rfl, hblank⟩, .inr ⟨?_, rfl⟩⟩
    rw [List.mem_append, not_or]
    exact ⟨newline_notMem_fence, hws⟩
  · obtain ⟨r, rfl⟩ := List.head?_eq_some_iff.mp hr
    refine ⟨fence ++ (ws ++ ['\n']), r, by simp, ⟨ws ++ ['\n'], rfl, ?_⟩, .inl ⟨fence ++ ws, ?_, by simp⟩⟩
    · intro c hc
      rcases List.mem_append.mp hc with hc | hc
      · exact hblank c hc
      · rw [List.mem_singleton.mp hc]
        rfl
    · rw [List.mem_append, not_or]
      exact ⟨newline_notMem_fence, hws⟩

/-- The first line of a text. -/
theorem firstLine_unique {l r : Text} (hl : IsLine l) (h : l ++ r = closing ++ rest)
    (hend : IsLine closing ∨ '\n' ∉ closing ∧ rest = []) : l = closing ∧ r = rest := by
  obtain ⟨t, ht, rfl⟩ := hl
  rcases hend with ⟨t', ht', rfl⟩ | ⟨hnot, rfl⟩
  · have hcons : t ++ '\n' :: r = t' ++ '\n' :: rest := by simpa using h
    obtain ⟨rfl, rfl⟩ := append_newline_inj ht ht' hcons
    exact ⟨rfl, rfl⟩
  · rw [List.append_nil] at h
    exact absurd (h ▸ by simp) hnot

/-- The lines up to the first closing line end at the first closing fence. -/
theorem firstSplit_closesAt (hbody : ∀ l ∈ body, IsLine l ∧ ¬ IsClosingLine l)
    (hclosing : IsClosingLine closing) (hend : IsLine closing ∨ '\n' ∉ closing ∧ rest = []) :
    FirstSplit ClosesAt (body.flatten ++ (closing ++ rest)) body.flatten (closing ++ rest) := by
  have hlines : ∀ l ∈ body, IsLine l := fun l hl => (hbody l hl).1
  refine ⟨rfl, closesAt_of_closingLine (endsLine_flatten hlines) hclosing hend, ?_⟩
  intro a b heq hcloses
  by_contra hlt
  obtain ⟨l, hl, r, rfl⟩ := exists_line_of_endsLine hlines heq hcloses.1 (Nat.lt_of_not_le hlt)
  obtain ⟨closing', rest', heq', hclosing', hend'⟩ := closingLine_of_closesAt hcloses
  obtain ⟨rfl, -⟩ := firstLine_unique (hbody l hl).1 heq' hend'
  exact (hbody l hl).2 hclosing'

variable {content : Text}

/-- Before the first closing fence are lines that are not closing, and it begins one that is. -/
theorem exists_body (h : FirstSplit ClosesAt content a b) :
    ∃ (body : List Text) (closing rest : Text), a = body.flatten ∧ b = closing ++ rest ∧
      (∀ l ∈ body, IsLine l ∧ ¬ IsClosingLine l) ∧ IsClosingLine closing ∧ (IsLine closing ∨ '\n' ∉ closing ∧ rest = []) := by
  obtain ⟨rfl, hcloses, hmin⟩ := h
  obtain ⟨body, rfl, hlines⟩ := exists_lines hcloses.1
  obtain ⟨closing, rest, rfl, hclosing, hend⟩ := closingLine_of_closesAt hcloses
  refine ⟨body, closing, rest, rfl, rfl, ?_, hclosing, hend⟩
  intro l hl
  refine ⟨hlines l hl, ?_⟩
  intro hclosing'
  obtain ⟨before, after, rfl⟩ := List.append_of_mem hl
  have hbefore : ∀ l ∈ before, IsLine l := fun l hl => hlines l (List.mem_append_left _ hl)
  have hle := hmin before.flatten (l ++ (after.flatten ++ (closing ++ rest))) (by simp)
    (closesAt_of_closingLine (endsLine_flatten hbefore) hclosing' (.inl (hlines l hl)))
  have hpos : 0 < byteLength l := by
    obtain ⟨t, -, rfl⟩ := hlines l hl
    have hnl : '\n'.utf8Size = 1 := rfl
    rw [byteLength_append, byteLength_cons, hnl]
    omega
  simp only [List.flatten_append, List.flatten_cons, byteLength_append] at hle
  omega

/-- A block begins at an opening fence after whose line is a closing fence, and ends with the line of the first one. -/
theorem exists_block {ws : Text} (hws : '\n' ∉ ws) (hblank : Blank ws) (h : FirstSplit ClosesAt content a b) :
    ∃ closing rest, b = closing ++ rest ∧ (IsLine closing ∨ '\n' ∉ closing ∧ rest = []) ∧
      IsBlock (marker ++ ws ++ '\n' :: (a ++ closing)) rest := by
  obtain ⟨body, closing, rest, rfl, rfl, hbody, hclosing, hend⟩ := exists_body h
  exact ⟨closing, rest, rfl, hend, .intro hws hblank hbody hclosing hend⟩

theorem IsBlock.exists_closesAt {block : Text} (h : IsBlock block rest) :
    ∃ ws content a b, block ++ rest = marker ++ (ws ++ '\n' :: content) ∧ '\n' ∉ ws ∧ Blank ws ∧
      FirstSplit ClosesAt content a b := by
  obtain @⟨ws, closing, _, body, hws, hblank, hbody, hclosing, hend⟩ := h
  exact ⟨ws, body.flatten ++ (closing ++ rest), body.flatten, closing ++ rest, by simp, hws, hblank,
    firstSplit_closesAt hbody hclosing hend⟩

theorem BeginsBlock.opensAt (h : BeginsBlock b) (a : Text) : OpensAt a b := by
  obtain ⟨block, rest, rfl, hblock⟩ := h
  obtain ⟨ws, content, -, -, heq, hws, hblank, -⟩ := hblock.exists_closesAt
  exact ⟨ws, content, heq, hws, hblank⟩

/-- Where a block begins, its end is determined. -/
theorem IsBlock.unique {block block' rest' : Text} (h : IsBlock block rest) (h' : IsBlock block' rest')
    (heq : block ++ rest = block' ++ rest') : block = block' ∧ rest = rest' := by
  obtain @⟨ws, closing, _, body, hws, hblank, hbody, hclosing, hend⟩ := h
  obtain @⟨ws', closing', _, body', hws', hblank', hbody', hclosing', hend'⟩ := h'
  have heq' : marker ++ (ws ++ '\n' :: (body.flatten ++ (closing ++ rest))) =
      marker ++ (ws' ++ '\n' :: (body'.flatten ++ (closing' ++ rest'))) := by simpa using heq
  obtain ⟨rfl, hcontent⟩ := append_newline_inj hws hws' (List.append_cancel_left heq')
  have hsplit := firstSplit_closesAt hbody hclosing hend
  rw [hcontent] at hsplit
  obtain ⟨hflat, hlast⟩ := hsplit.unique (firstSplit_closesAt hbody' hclosing' hend')
  have hsame : closing = closing' ∧ rest = rest' := by
    rcases hend with hline | ⟨hnot, rfl⟩
    · exact firstLine_unique hline hlast hend'
    · rcases hend' with hline' | ⟨-, rfl⟩
      · obtain ⟨hsame, hrest⟩ := firstLine_unique hline' hlast.symm (.inr ⟨hnot, rfl⟩)
        exact ⟨hsame.symm, hrest.symm⟩
      · simpa using hlast
  rw [hflat, hsame.1]
  exact ⟨rfl, hsame.2⟩

variable {text : Text}

/-- After an opening fence that is never closed no block begins. -/
theorem not_beginsBlock {ws : Text} (htext : text = a ++ (marker ++ (ws ++ '\n' :: content)))
    (hws : '\n' ∉ ws) (hfirst : ∀ a' b', text = a' ++ b' → OpensAt a' b' → byteLength a ≤ byteLength a')
    (hnone : ∀ x y, content = x ++ y → ¬ ClosesAt x y) : ∀ a' b', text = a' ++ b' → ¬ BeginsBlock b' := by
  rintro a' b' heq hblock
  have hle := hfirst a' b' heq (hblock.opensAt a')
  obtain ⟨block, rest, rfl, hblock⟩ := hblock
  obtain ⟨ws', content', x, y, hsplit, -, -, rfl, hcloses, -⟩ := hblock.exists_closesAt
  rw [hsplit, htext] at heq
  obtain ⟨m, rfl, hm⟩ := exists_append_of_byteLength_le heq hle
  -- the line of the first opening fence ends before the closing fence
  have hline : '\n' ∉ marker ++ ws := by
    rw [List.mem_append, not_or]
    exact ⟨by decide, hws⟩
  have hbefore : (marker ++ ws) ++ '\n' :: content = ((m ++ marker ++ ws') ++ '\n' :: x) ++ y := by
    simpa using hm
  obtain ⟨m', -, hm', hends⟩ := exists_of_endsLine hline hbefore (endsLine_cons hcloses.1 _)
  exact hnone m' y hm' ⟨hends, hcloses.2⟩

variable {pieces : List Text}

/-- The pieces of a text are determined. -/
theorem Pieces.unique {pieces' : List Text} (h : Pieces text pieces) (h' : Pieces text pieces') :
    pieces = pieces' := by
  induction h generalizing pieces' with
  | last hnone =>
    cases h' with
    | last _ => rfl
    | block hfirst' hblock' _ => exact absurd hfirst'.2.1 (hnone _ _ hfirst'.1)
  | block hfirst hblock _ ih =>
    cases h' with
    | last hnone' => exact absurd hfirst.2.1 (hnone' _ _ hfirst.1)
    | block hfirst' hblock' hrest' =>
      obtain ⟨rfl, heq⟩ := hfirst.unique hfirst'
      obtain ⟨rfl, rfl⟩ := hblock.unique hblock' heq
      rw [ih hrest']

theorem Pieces.ne_nil (h : Pieces text pieces) : pieces ≠ [] := by
  cases h <;> simp

/-- There is one piece when there is no block. -/
theorem Pieces.length_eq_one_iff (h : Pieces text pieces) :
    pieces.length = 1 ↔ ∀ a b, text = a ++ b → ¬ BeginsBlock b := by
  cases h with
  | last hnone => exact iff_of_true rfl hnone
  | block hfirst hblock hrest =>
    refine iff_of_false ?_ fun hnone => hnone _ _ hfirst.1 hfirst.2.1
    rw [List.length_cons]
    have := List.length_pos_of_ne_nil hrest.ne_nil
    omega

/-! ## The loop -/

theorem marker_ne_nil : marker ≠ [] := by decide

/-- What the search for the end of a block gives: the position after it. -/
theorem afterClosing_eq (before : Text) (hend : IsLine closing ∨ '\n' ∉ closing ∧ rest = []) :
    (match find ['\n'] (closing ++ rest) with
      | some newline => byteLength before + newline + 1
      | none => byteLength (before ++ (closing ++ rest))) = byteLength (before ++ closing) := by
  have hnl : '\n'.utf8Size = 1 := rfl
  rcases hend with ⟨t, ht, rfl⟩ | ⟨hnot, rfl⟩
  · have hcons : t ++ ['\n'] ++ rest = t ++ '\n' :: rest := by simp
    rw [hcons, find_newline ht]
    simp only [byteLength_append, byteLength_cons, byteLength_nil, hnl]
    omega
  · rw [List.append_nil, find_newline_of_notMem hnot]

/-- The loop at the end of a block, or at the beginning: it copies the pieces of the rest up to the last one. -/
theorem stripLoop_spec {fuel : ℕ} (hfuel : byteLength text < fuel) {turns : ℕ} (st : StripState)
    {before : Text} (htext : text = before ++ rest) (hcopied : st.lastCopied = byteLength before)
    (hsearch : st.searchFrom = byteLength before) (hturns : byteLength rest < turns) :
    ∃ pieces st' before' last, Pieces rest pieces ∧ stripLoop fuel text turns st = .ok st' ∧ text = before' ++ last ∧
      st'.lastCopied = byteLength before' ∧ st'.output ++ last = st.output ++ pieces.flatten ∧
      st'.removedAny = (st.removedAny || decide (pieces.length ≠ 1)) := by
  induction turns generalizing st before rest with
  | zero => exact absurd hturns (Nat.not_lt_zero _)
  | succ turns ih =>
    have hlen : byteLength text = byteLength before + byteLength rest := by rw [htext, byteLength_append]
    -- where no block begins, the loop ends
    have hlast : (∀ a b, rest = a ++ b → ¬ BeginsBlock b) →
        ∃ pieces st' before' last, Pieces rest pieces ∧ Except.ok (α := StripState) (ε := Stop) st = .ok st' ∧
          text = before' ++ last ∧ st'.lastCopied = byteLength before' ∧
          st'.output ++ last = st.output ++ pieces.flatten ∧
          st'.removedAny = (st.removedAny || decide (pieces.length ≠ 1)) := fun hnone =>
      ⟨[rest], st, before, rest, .last hnone, rfl, htext, hcopied, by simp, by simp⟩
    rw [stripLoop]
    split
    · have hslice : sliceFrom st.searchFrom text = some rest := by
        rw [hsearch, htext]
        exact sliceFrom_append before rest
      have hlenRest : byteLength rest < fuel := by omega
      obtain ⟨found, hfound, hfinds⟩ := findOpening_spec hlenRest
      simp only [hslice, orPanic_some, hfound, bind, Except.bind]
      cases found with
      | none => exact hlast fun a b heq hblock => hfinds a b heq (hblock.opensAt a)
      | some relPos =>
        obtain ⟨a, b, ⟨rfl, ⟨ws, content, rfl, hws, hblank⟩, hmin⟩, rfl⟩ := hfinds
        have hnl : '\n'.utf8Size = 1 := rfl
        have hblockStart : st.searchFrom + byteLength a + byteLength marker = byteLength (before ++ a ++ marker) := by
          rw [hsearch, byteLength_append, byteLength_append]
        have hafterMarker : sliceFrom (byteLength (before ++ a ++ marker)) text = some (ws ++ '\n' :: content) := by
          rw [htext]
          have hassoc : before ++ (a ++ (marker ++ (ws ++ '\n' :: content))) =
              (before ++ a ++ marker) ++ (ws ++ '\n' :: content) := by simp
          rw [hassoc]
          exact sliceFrom_append _ _
        have hcontentStart : byteLength (before ++ a ++ marker) + byteLength ws + 1 =
            byteLength (before ++ a ++ marker ++ ws ++ ['\n']) := by
          simp only [byteLength_append, byteLength_cons, byteLength_nil, hnl]
        have hassoc : text = (before ++ a ++ marker ++ ws ++ ['\n']) ++ content := by
          rw [htext]
          simp
        have hcontent : sliceFrom (byteLength (before ++ a ++ marker ++ ws ++ ['\n'])) text = some content := by
          rw [hassoc]
          exact sliceFrom_append _ _
        have hlenContent : byteLength content < fuel := by
          rw [hassoc, byteLength_append] at hfuel
          omega
        obtain ⟨closes, hcloses, hfindsClose⟩ := findClosing_spec hlenContent
        simp only [hblockStart, hafterMarker, orPanic_some, find_newline hws, hcontentStart, hcontent, hcloses]
        cases closes with
        | none => exact hlast (not_beginsBlock rfl hws hmin hfindsClose)
        | some endPos =>
          obtain ⟨x, y, hfirst, rfl⟩ := hfindsClose
          obtain ⟨closing, rest', rfl, hend, hblock⟩ := exists_block hws hblank hfirst
          obtain rfl := hfirst.1
          have hclosingStart : byteLength (before ++ a ++ marker ++ ws ++ ['\n']) + byteLength x =
              byteLength (before ++ a ++ marker ++ ws ++ ['\n'] ++ x) := (byteLength_append _ x).symm
          have htext' : text = (before ++ a ++ marker ++ ws ++ ['\n'] ++ x) ++ (closing ++ rest') := by
            rw [hassoc]
            simp
          have hclosing : sliceFrom (byteLength (before ++ a ++ marker ++ ws ++ ['\n'] ++ x)) text =
              some (closing ++ rest') := by
            rw [htext']
            exact sliceFrom_append _ _
          have hafter := afterClosing_eq (before ++ a ++ marker ++ ws ++ ['\n'] ++ x) hend
          rw [← htext'] at hafter
          have hpiece : slice st.lastCopied (st.searchFrom + byteLength a) text = some a := by
            rw [hcopied, hsearch, htext]
            exact slice_append before a _
          simp only [hclosingStart, hclosing, orPanic_some, hafter, hpiece]
          have hwhole : before ++ a ++ marker ++ ws ++ ['\n'] ++ x ++ closing =
              before ++ (a ++ (marker ++ ws ++ '\n' :: (x ++ closing))) := by simp
          rw [hwhole]
          have hrest : text = (before ++ (a ++ (marker ++ ws ++ '\n' :: (x ++ closing)))) ++ rest' := by
            rw [htext]
            simp
          have hshorter : byteLength rest' < turns := by
            simp only [byteLength_append, byteLength_cons, hnl] at hturns
            omega
          obtain ⟨pieces, st', before', last, hpieces, hrun, hsplit, hlastCopied, hout, hremoved⟩ :=
            ih ⟨st.output ++ a, _, _, true⟩ hrest rfl rfl hshorter
          refine ⟨a :: pieces, st', before', last, .block ?_ hblock hpieces, hrun, hsplit, hlastCopied, ?_, ?_⟩
          · refine ⟨by simp, ⟨_, _, rfl, hblock⟩, ?_⟩
            exact fun a' b' heq hbegins => hmin a' b' heq (hbegins.opensAt a')
          · rw [hout]
            simp
          · have hpos := List.length_pos_of_ne_nil hpieces.ne_nil
            have hne : pieces.length + 1 ≠ 1 := by omega
            rw [hremoved, Bool.true_or, List.length_cons, decide_eq_true hne, Bool.or_true]
    · rename_i hend
      have hnil : rest = [] := by
        rw [hsearch, hlen] at hend
        exact byteLength_eq_zero.mp (by omega)
      apply hlast
      rintro a b heq hblock
      rw [hnil] at heq
      obtain ⟨ws, r, rfl, -⟩ := hblock.opensAt a
      exact marker_ne_nil (List.append_eq_nil_iff.mp (List.append_eq_nil_iff.mp heq.symm).2).1

/-- The loop ends, makes no slice that panics, and returns the text without its blocks, or nothing where it has none. -/
theorem stripSuggestedNextStepsBlocks_spec {fuel : ℕ} {text : Text} (hfuel : byteLength text < fuel) :
    ∃ pieces, Pieces text pieces ∧ (∀ pieces', Pieces text pieces' → pieces' = pieces) ∧
      stripSuggestedNextStepsBlocks fuel text = .ok (if pieces.length = 1 then none else some pieces.flatten) ∧
      (stripSuggestedNextStepsBlocks fuel text = .ok none ↔ ∀ a b, text = a ++ b → ¬ BeginsBlock b) := by
  obtain ⟨pieces, st, before, last, hpieces, hrun, htext, hcopied, hout, hremoved⟩ :=
    stripLoop_spec hfuel ⟨[], 0, 0, false⟩ (List.nil_append text).symm rfl rfl hfuel
  have hslice : sliceFrom st.lastCopied text = some last := by
    rw [hcopied, htext]
    exact sliceFrom_append before last
  have hresult : stripSuggestedNextStepsBlocks fuel text =
      .ok (if pieces.length = 1 then none else some pieces.flatten) := by
    simp only [stripSuggestedNextStepsBlocks, hrun, bind, Except.bind, hremoved, hslice, orPanic_some, hout]
    split <;> simp_all [pure, Except.pure]
  refine ⟨pieces, hpieces, fun pieces' h => h.unique hpieces, hresult, ?_⟩
  rw [hresult, ← hpieces.length_eq_one_iff]
  split <;> simp_all

/-- A message with a block after its first line. -/
def messageWithSteps : Text := "Done. ```suggested-next-steps\n[]\n```\n---\n# Note".toList

theorem stripSuggestedNextStepsBlocks_spec_messageWithSteps :
    ∃ pieces, Pieces messageWithSteps pieces ∧ (∀ pieces', Pieces messageWithSteps pieces' → pieces' = pieces) ∧
      stripSuggestedNextStepsBlocks 100 messageWithSteps =
        .ok (if pieces.length = 1 then none else some pieces.flatten) ∧
      (stripSuggestedNextStepsBlocks 100 messageWithSteps = .ok none ↔
        ∀ a b, messageWithSteps = a ++ b → ¬ BeginsBlock b) :=
  stripSuggestedNextStepsBlocks_spec (by decide)

end Builderbot.Staged.SuggestedSteps
