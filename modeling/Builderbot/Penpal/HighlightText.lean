import Builderbot.DiffViewer.InlineDiff
import Builderbot.Lib.Occurrences
import Builderbot.Lib.Transducer

/-!
# Finding a selected text in a rendered one

The text helpers of `apps/penpal/frontend/src/components/rehypeCommentHighlights.ts`. The selected text and the text of
an element are compared without formatting characters and with white space collapsed; a match in the normalised text is
carried back to the text by a map of positions, one for each character that is left.

`normalizeHast_slice` says that the stretch of the text between two positions of the map normalises to the stretch of the
normalised text between their indices.
-/

namespace Builderbot.Penpal.Highlights

open DiffViewer Lib.Transducer Lib.Occurrences

/-! ## Normalisation -/

/-- An asterisk, an underscore or a grave accent. -/
def isFormat (u : UInt16) : Bool := u == 0x2A || u == 0x5F || u == 0x60

/-- `.replace(/\s+/g, ' ')` behind a white space or not. -/
def collapseSpaces : Bool → JsString → JsString
  | _, [] => []
  | inRun, u :: rest =>
    if isSpace u.toNat then
      if inRun then collapseSpaces true rest else 0x20 :: collapseSpaces true rest
    else u :: collapseSpaces false rest

def normalizeHast (text : JsString) : JsString := collapseSpaces false (text.filter fun u => !isFormat u)

def isLineTerminator (u : UInt16) : Bool := u == 0x0A || u == 0x0D || u == 0x2028 || u == 0x2029

/-- A change of every line, behind the part of a line that was read. -/
def mapLines (f : JsString → JsString) (line : JsString) : JsString → JsString
  | [] => f line
  | u :: rest => if isLineTerminator u then f line ++ u :: mapLines f [] rest else mapLines f (line ++ [u]) rest

def isDigit (u : UInt16) : Bool := 0x30 ≤ u && u ≤ 0x39

/-- The line without the marker of a heading, a list or a quotation at its beginning. The marker of a task follows that
of a list, and an asterisk was removed before. -/
def stripMarker (text : JsString) : JsString :=
  let hashes := (text.takeWhile (· == 0x23)).length
  let digits := (text.takeWhile isDigit).length
  if 1 ≤ hashes && hashes ≤ 6 && text[hashes]? == some 0x20 then text.drop (hashes + 1)
  else if [0x2D, 0x20] <+: text then text.drop 2
  else if [0x2E, 0x20] <+: text.drop digits then text.drop (digits + 2)
  else if [0x3E, 0x20] <+: text then text.drop 2
  else text

/-- `^-+$` is removed. -/
def stripBreak (line : JsString) : JsString := if line.all (· == 0x2D) then [] else line

def normalizeSelected (selectedText : JsString) : JsString :=
  let stripped := selectedText.filter fun u => !isFormat u
  trim (collapseSpaces false (mapLines stripBreak [] (mapLines stripMarker [] stripped)))

/-- The loop of `buildNormToOrigMap`, with the length of the text at the end. -/
def normToOrigFrom (normalizedText : JsString) : ℕ → ℕ → JsString → List ℕ
  | oi, _, [] => [oi]
  | oi, ni, ch :: rest =>
    if isFormat ch then normToOrigFrom normalizedText (oi + 1) ni rest
    else if isSpace ch.toNat then
      if normalizedText[ni]? = some 0x20 then oi :: normToOrigFrom normalizedText (oi + 1) (ni + 1) rest
      else normToOrigFrom normalizedText (oi + 1) ni rest
    else oi :: normToOrigFrom normalizedText (oi + 1) (ni + 1) rest

def buildNormToOrigMap (text normalizedText : JsString) : List ℕ := normToOrigFrom normalizedText 0 0 text

/-- One character of the normalisation; the state says whether the last one that was kept is a white space. -/
def normalizeStep (inRun : Bool) (u : UInt16) : Bool × List UInt16 :=
  if isFormat u then (inRun, [])
  else if isSpace u.toNat then (true, if inRun then [] else [0x20])
  else (false, [u])

variable (inRun : Bool)

theorem transduce_normalizeStep (text : JsString) :
    (transduce normalizeStep inRun text).2 = collapseSpaces inRun (text.filter fun u => !isFormat u) := by
  induction text generalizing inRun with
  | nil => rfl
  | cons u rest ih =>
    rw [transduce_cons, ih, normalizeStep]
    split
    case isTrue hformat => rw [List.filter_cons_of_neg (by simp [hformat]), List.nil_append]
    case isFalse hformat =>
      rw [List.filter_cons_of_pos (by simp [hformat]), collapseSpaces]
      split
      · cases inRun <;> rfl
      · rfl

variable (text : JsString)

theorem normalizeHast_eq : normalizeHast text = (transduce normalizeStep false text).2 :=
  (transduce_normalizeStep false text).symm

theorem length_normalizeStep_le (u : UInt16) : (normalizeStep inRun u).2.length ≤ 1 := by
  rw [normalizeStep]
  split
  · exact Nat.zero_le _
  · split
    · cases inRun <;> decide
    · exact le_rfl

theorem normalizeStep_fresh (u : UInt16) (h : (normalizeStep inRun u).2 ≠ []) :
    normalizeStep false u = normalizeStep inRun u := by
  cases inRun with
  | false => rfl
  | true =>
    rw [normalizeStep] at h ⊢
    rw [normalizeStep]
    split
    case isTrue hformat => simp [hformat] at h
    case isFalse hformat =>
      split
      case isTrue hspace => simp [hformat, hspace] at h
      case isFalse => rfl

/-- Behind a white space nothing gives a blank. -/
theorem head?_collapseSpaces_true : (collapseSpaces true text)[0]? ≠ some 0x20 := by
  induction text with
  | nil => simp [collapseSpaces]
  | cons u rest ih =>
    rw [collapseSpaces]
    split
    case isTrue => exact ih
    case isFalse hspace =>
      rw [List.getElem?_cons_zero, ne_eq, Option.some.injEq]
      rintro rfl
      exact hspace (by decide)

/-- The map holds the positions that the normalised text comes from. -/
theorem normToOrigFrom_eq (before : JsString) (oi : ℕ) (text : JsString) :
    normToOrigFrom (before ++ (transduce normalizeStep inRun text).2) oi before.length text =
      origins normalizeStep inRun oi text := by
  induction text generalizing inRun before oi with
  | nil => rfl
  | cons u rest ih =>
    have hkeep : ∀ w v, normToOrigFrom (before ++ ([v] ++ (transduce normalizeStep w rest).2)) (oi + 1)
        (before.length + 1) rest = origins normalizeStep w (oi + 1) rest := by
      intro w v
      have hrest := ih w (before ++ [v]) (oi + 1)
      rwa [List.append_assoc, List.length_append] at hrest
    have hat : ∀ tail : JsString, (before ++ tail)[before.length]? = tail[0]? := fun tail => by
      rw [List.getElem?_append_right le_rfl, Nat.sub_self]
    rw [normToOrigFrom, origins, transduce_cons, normalizeStep]
    split
    case isTrue => exact ih inRun before (oi + 1)
    case isFalse =>
      split
      case isFalse => exact congrArg (oi :: ·) (hkeep false u)
      case isTrue =>
        cases inRun with
        | false =>
          have hblank : (before ++ ([0x20] ++ (transduce normalizeStep true rest).2))[before.length]? = some 0x20 :=
            hat _
          exact (if_pos hblank).trans (congrArg (oi :: ·) (hkeep true 0x20))
        | true =>
          have hnone : (before ++ (transduce normalizeStep true rest).2)[before.length]? ≠ some 0x20 := by
            rw [hat, transduce_normalizeStep]
            exact head?_collapseSpaces_true _
          exact (if_neg hnone).trans (ih true before (oi + 1))

theorem buildNormToOrigMap_eq :
    buildNormToOrigMap text (normalizeHast text) = origins normalizeStep false 0 text := by
  rw [normalizeHast_eq]
  exact normToOrigFrom_eq false [] 0 text

theorem length_buildNormToOrigMap :
    (buildNormToOrigMap text (normalizeHast text)).length = (normalizeHast text).length + 1 := by
  rw [buildNormToOrigMap_eq, length_origins length_normalizeStep_le, normalizeHast_eq]

/-- `normToOrig[i]`, for an index of the map. -/
def origAt (normToOrig : List ℕ) (i : ℕ) : ℕ := normToOrig[i]?.getD 0

/-- The stretch of the text between two positions of the map. -/
theorem normalizeHast_slice {k l : ℕ} (hkl : k ≤ l) (hl : l ≤ (normalizeHast text).length) :
    let normToOrig := buildNormToOrigMap text (normalizeHast text)
    normalizeHast ((text.take (origAt normToOrig l)).drop (origAt normToOrig k)) =
      ((normalizeHast text).take l).drop k := by
  intro normToOrig
  have hlen : normToOrig.length = (normalizeHast text).length + 1 := length_buildNormToOrigMap text
  have hat : ∀ i, i ≤ (normalizeHast text).length →
      (origins normalizeStep false 0 text)[i]? = some (origAt normToOrig i) := by
    intro i hi
    have hlt : i < normToOrig.length := by omega
    rw [← buildNormToOrigMap_eq, origAt]
    change normToOrig[i]? = _
    rw [List.getElem?_eq_getElem hlt, Option.getD_some]
  obtain ⟨hslice, -, -⟩ := transduce_slice length_normalizeStep_le normalizeStep_fresh hkl
    (hat k (hkl.trans hl)) (hat l hl)
  rw [normalizeHast_eq, hslice, normalizeHast_eq]

/-! ## Matching -/

/-- `text.indexOf(search, pos)`. -/
def indexOfFrom (text search : JsString) (pos : ℕ) : Option ℕ :=
  (indexOf? search (text.drop pos)).map (min pos text.length + ·)

/-- The loop of `nthIndexOf` in round `i`, with the number of rounds that are left behind this one. -/
def nthIndexOfFrom (text search : JsString) : ℕ → ℕ → ℕ → Option ℕ
  | left, i, pos =>
    match indexOfFrom text search pos with
    | none => if i = 0 then none else indexOf? search text
    | some found =>
      match left with
      | 0 => some found
      | left + 1 => nthIndexOfFrom text search left (i + 1) (found + 1)

/-- `nthIndexOf`, with `none` for `-1`. -/
def nthIndexOf (text search : JsString) (occurrence : ℤ) : Option ℕ :=
  if occurrence < 0 then none else nthIndexOfFrom text search occurrence.toNat 0 0

/-- The binary search for the longest prefix that is found: `hi` at its end. -/
def bisect (found : ℕ → Bool) (lo hi : ℤ) : ℤ :=
  if lo ≤ hi then
    let mid := (lo + hi) / 2
    if found mid.toNat then bisect found (mid + 1) hi else bisect found lo (mid - 1)
  else hi
termination_by (hi + 1 - lo).toNat

/-- Where a stretch of the normalised text begins and how long it is. -/
structure Match where
  matchIndex : ℕ
  matchLength : ℕ
  isCrossElement : Bool
deriving DecidableEq, Repr

/-- The longest prefix with at least three characters, in `applyHighlight`. -/
def findPrefix (normalizedText normSelected : JsString) : Option Match :=
  if 3 < normSelected.length then
    let prefixLen := bisect (fun mid => (indexOf? (normSelected.take mid) normalizedText).isSome) 3
      (normSelected.length - 1)
    if 3 ≤ prefixLen then
      (indexOf? (normSelected.take prefixLen.toNat) normalizedText).map fun i => ⟨i, prefixLen.toNat, true⟩
    else none
  else none

/-- The prefix of one or two characters that ends a short text. -/
def findShortPrefix (normalizedText normSelected : JsString) : Option Match :=
  if 1 < normSelected.length ∧ normalizedText.length ≤ 3 then
    ([2, 1].find? fun tryLen => normSelected.take tryLen <:+ normalizedText).map fun tryLen =>
      ⟨normalizedText.length - tryLen, tryLen, true⟩
  else none

/-- The stretch that `applyHighlight` marks. -/
def findHighlight (normalizedText normSelected : JsString) (occurrence : ℤ) : Option Match :=
  ((nthIndexOf normalizedText normSelected occurrence).map fun i => ⟨i, normSelected.length, false⟩).or
    ((findPrefix normalizedText normSelected).or (findShortPrefix normalizedText normSelected))

/-- The stretch that `applyContinuation` marks, behind the characters of the remaining text that are skipped. -/
structure ContinuedMatch where
  matchIndex : ℕ
  matchLength : ℕ
  skippedChars : ℕ
deriving DecidableEq, Repr

/-- Strategy 2, the longest prefix. -/
def continuePrefix (normalizedText remaining : JsString) : Option ContinuedMatch :=
  let hi := bisect (fun mid => (indexOf? (remaining.take mid) normalizedText).isSome) 1
    (min remaining.length normalizedText.length)
  if 3 ≤ hi then
    (indexOf? (remaining.take hi.toNat) normalizedText).map fun i => ⟨i, hi.toNat, 0⟩
  else none

/-- Strategy 2b, a short rest at the beginning of the text. -/
def continueShort (normalizedText remaining : JsString) : Option ContinuedMatch :=
  if remaining.length < 3 ∧ 1 ≤ remaining.length ∧ remaining <+: normalizedText then some ⟨0, remaining.length, 0⟩
  else none

def minOverlapElement (remaining : JsString) (mermaidCrossed : Bool) : ℕ :=
  if mermaidCrossed then 3 else max 3 (min 10 (remaining.length / 3))

def probeWindow (remaining : JsString) : ℕ := max 5 (remaining.length / 2)

/-- The condition under which an overlap at `overlapIdx` is accepted. -/
def acceptsOverlap (remaining probe : JsString) (mermaidCrossed : Bool) (overlapIdx : ℕ) : Bool :=
  0 < overlapIdx && (if mermaidCrossed then 3 ≤ probe.length else 8 ≤ probe.length || overlapIdx < probeWindow remaining)

/-- Strategy 3, the beginning of the text inside the remaining one. -/
def continueOverlap (normalizedText remaining : JsString) (mermaidCrossed : Bool) : Option ContinuedMatch :=
  if minOverlapElement remaining mermaidCrossed ≤ normalizedText.length then
    let probe := normalizedText.take (min (probeWindow remaining) normalizedText.length)
    match indexOf? probe remaining with
    | none => none
    | some overlapIdx =>
      if acceptsOverlap remaining probe mermaidCrossed overlapIdx then
        some ⟨0, min normalizedText.length (remaining.length - overlapIdx), overlapIdx⟩
      else none
  else none

def findContinuation (normalizedText remaining : JsString) (mermaidCrossed : Bool) : Option ContinuedMatch :=
  ((indexOf? remaining normalizedText).map fun i => ⟨i, remaining.length, 0⟩).or
    ((continuePrefix normalizedText remaining).or
      ((continueShort normalizedText remaining).or (continueOverlap normalizedText remaining mermaidCrossed)))

/-- The longest prefix with at least three characters, in `matchTextInCode`. -/
def codePrefix (normalizedCode searchText : JsString) : Option ContinuedMatch :=
  if 3 < searchText.length then
    let hi := bisect (fun mid => (indexOf? (searchText.take mid) normalizedCode).isSome) 3
      (min (searchText.length - 1) normalizedCode.length)
    if 3 ≤ hi then
      (indexOf? (searchText.take hi.toNat) normalizedCode).map fun i => ⟨i, hi.toNat, 0⟩
    else none
  else none

def matchTextInCode (normalizedCode searchText : JsString) (occurrence : ℤ) : Option ContinuedMatch :=
  ((nthIndexOf normalizedCode searchText occurrence).map fun i => ⟨i, searchText.length, 0⟩).or
    ((codePrefix normalizedCode searchText).or (continueShort normalizedCode searchText))

variable {search : JsString}

theorem indexOfFrom_le {text : JsString} {pos i : ℕ} (h : indexOfFrom text search pos = some i) :
    i + search.length ≤ text.length := by
  obtain ⟨j, hj, rfl⟩ := Option.map_eq_some_iff.mp h
  have hle := add_length_le_of_indexOf? hj
  rw [List.length_drop] at hle
  omega

theorem nthIndexOf_le {text : JsString} {occurrence : ℤ} {i : ℕ} (h : nthIndexOf text search occurrence = some i) :
    i + search.length ≤ text.length := by
  -- on the rounds that are left, for any position to search from
  have hloop : ∀ left round pos, nthIndexOfFrom text search left round pos = some i →
      i + search.length ≤ text.length := by
    intro left
    induction left with
    | zero =>
      intro round pos hi
      rw [nthIndexOfFrom] at hi
      split at hi
      case h_1 =>
        split at hi
        · cases hi
        · exact add_length_le_of_indexOf? hi
      case h_2 found hfound =>
        obtain rfl := Option.some.inj hi
        exact indexOfFrom_le hfound
    | succ left ih =>
      intro round pos hi
      rw [nthIndexOfFrom] at hi
      split at hi
      case h_1 =>
        split at hi
        · cases hi
        · exact add_length_le_of_indexOf? hi
      case h_2 => exact ih _ _ hi
  rw [nthIndexOf] at h
  split at h
  · cases h
  · exact hloop _ _ _ h

/-- A prefix of the searched text, found in the text. -/
theorem indexOf?_take_le {text : JsString} {n i : ℕ} (hn : n ≤ search.length)
    (h : indexOf? (search.take n) text = some i) : i + n ≤ text.length := by
  have hle := add_length_le_of_indexOf? h
  rwa [List.length_take, Nat.min_eq_left hn] at hle

theorem bisect_le (found : ℕ → Bool) (lo hi : ℤ) : bisect found lo hi ≤ hi := by
  fun_induction bisect found lo hi with
  | case1 lo hi hle mid hfound ih => exact ih
  | case2 lo hi hle mid hfound ih => omega
  | case3 lo hi hlt => exact Int.le_refl hi

/-- The stretch that is marked lies in the normalised text. -/
theorem findHighlight_le {normalizedText normSelected : JsString} {occurrence : ℤ} {m : Match}
    (h : findHighlight normalizedText normSelected occurrence = some m) :
    m.matchIndex + m.matchLength ≤ normalizedText.length := by
  rw [findHighlight, Option.or_eq_some_iff, Option.or_eq_some_iff] at h
  rcases h with h | ⟨-, h | ⟨-, h⟩⟩
  · obtain ⟨i, hi, rfl⟩ := Option.map_eq_some_iff.mp h
    exact nthIndexOf_le hi
  · rw [findPrefix] at h
    split at h
    case isTrue hlong =>
      have hbound := bisect_le (fun mid => (indexOf? (normSelected.take mid) normalizedText).isSome) 3
        (normSelected.length - 1)
      dsimp only at h
      split at h
      · obtain ⟨i, hi, rfl⟩ := Option.map_eq_some_iff.mp h
        have hle := indexOf?_take_le (by omega) hi
        exact hle
      · cases h
    case isFalse => cases h
  · rw [findShortPrefix] at h
    split at h
    · obtain ⟨tryLen, hlen, rfl⟩ := Option.map_eq_some_iff.mp h
      have hsuffix : normSelected.take tryLen <:+ normalizedText := by simpa using List.find?_some hlen
      have hends := hsuffix.length_le
      have hle : tryLen = 2 ∨ tryLen = 1 := by simpa using List.mem_of_find?_eq_some hlen
      rw [List.length_take] at hends
      change normalizedText.length - tryLen + tryLen ≤ normalizedText.length
      omega
    · cases h

end Builderbot.Penpal.Highlights
