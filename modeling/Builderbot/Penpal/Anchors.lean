import Builderbot.Lib.Occurrences
import Builderbot.Penpal.CommentStore

/-!
# Anchors

A thread is anchored to a selected text, with the text before and after it to tell occurrences apart.
`ResolveAnchor` of `apps/penpal/internal/comments/anchor.go` looks the anchor up in a text, and
`penpal_create_thread` of `mcpserver/tools.go` makes one from a text, with up to 80 bytes on each side.

The search counts the occurrences that do not overlap, and then looks at that many occurrences, overlapping
ones included. `resolveAnchor_right_iff` says when that is enough.
-/

namespace Builderbot.Penpal.Comments

open Lib Lib.Occurrences

/-! ## Resolving -/

/-- `s[start:stop]`. -/
def slice (s : Bytes) (start stop : ℕ) : Bytes := (s.take stop).drop start

/-- `beforeMatch` at an occurrence. -/
def beforeMatch (markdown : Bytes) (anchor : Anchor) (absIdx : ℕ) : Bool :=
  if anchor.before = [] then true
  else if anchor.before.length ≤ absIdx then slice markdown (absIdx - anchor.before.length) absIdx = anchor.before
  else false

/-- `afterMatch` at an occurrence. -/
def afterMatch (markdown : Bytes) (anchor : Anchor) (absIdx : ℕ) : Bool :=
  let afterStart := absIdx + anchor.selectedText.length
  if anchor.after = [] then true
  else if afterStart + anchor.after.length ≤ markdown.length then
    slice markdown afterStart (afterStart + anchor.after.length) = anchor.after
  else false

/-- The loop of `ResolveAnchor`, for a number of rounds. -/
def searchContext (markdown : Bytes) (anchor : Anchor) : ℕ → ℕ → Option ℕ
  | 0, _ => none
  | rounds + 1, offset =>
    match indexOf? anchor.selectedText (markdown.drop offset) with
    | none => none
    | some idx =>
      let absIdx := offset + idx
      if beforeMatch markdown anchor absIdx && afterMatch markdown anchor absIdx then some absIdx
      else searchContext markdown anchor rounds (absIdx + 1)

/-- `ResolveAnchor`, with `none` for `-1`. -/
def resolveAnchor (markdown : Bytes) (anchor : Anchor) : Option ℕ :=
  if anchor.selectedText = [] then none
  else
    let n := count anchor.selectedText markdown
    if n = 0 then none
    else if n = 1 then indexOf? anchor.selectedText markdown
    else if anchor.before ≠ [] ∨ anchor.after ≠ [] then
      (searchContext markdown anchor n 0).or (indexOf? anchor.selectedText markdown)
    else indexOf? anchor.selectedText markdown

/-- The line of an offset, from 1 on. -/
def lineOf (markdown : Bytes) (offset : ℕ) : ℤ := 1 + (markdown.take offset).count 10

/-! ## The right occurrence -/

/-- The selected text is at the position. -/
def OccursAt (markdown : Bytes) (anchor : Anchor) (i : ℕ) : Prop := anchor.selectedText <+: markdown.drop i

/-- The selected text is at the position, between the texts before and after it. -/
structure Fits (markdown : Bytes) (anchor : Anchor) (i : ℕ) : Prop where
  occurs : OccursAt markdown anchor i
  before : anchor.before <:+ markdown.take i
  after : anchor.after <+: markdown.drop (i + anchor.selectedText.length)

instance (markdown : Bytes) (anchor : Anchor) : DecidablePred (OccursAt markdown anchor) :=
  fun i => inferInstanceAs (Decidable (anchor.selectedText <+: markdown.drop i))

instance (markdown : Bytes) (anchor : Anchor) : DecidablePred (Fits markdown anchor) := fun i =>
  decidable_of_iff (OccursAt markdown anchor i ∧ anchor.before <:+ markdown.take i ∧
      anchor.after <+: markdown.drop (i + anchor.selectedText.length))
    ⟨fun h => ⟨h.1, h.2.1, h.2.2⟩, fun h => ⟨h.occurs, h.before, h.after⟩⟩

/-- An anchor is resolved to the first occurrence that fits, or else to the first one. -/
structure Right (markdown : Bytes) (anchor : Anchor) (r : Option ℕ) : Prop where
  missing : r = none ↔ ¬ anchor.selectedText <:+: markdown
  fitting : ∀ i, IsFirst (Fits markdown anchor) i → r = some i
  first : (∀ i, ¬ Fits markdown anchor i) → ∀ i, IsFirst (OccursAt markdown anchor) i → r = some i

variable {i : ℕ}

section

variable {markdown : Bytes} {anchor : Anchor}

theorem beforeMatch_iff (hi : i ≤ markdown.length) :
    beforeMatch markdown anchor i = true ↔ anchor.before <:+ markdown.take i := by
  have hlen : (markdown.take i).length = i := by rw [List.length_take]; omega
  rw [beforeMatch]
  split
  case isTrue hempty => simp [hempty]
  case isFalse =>
    rw [List.suffix_iff_eq_drop, hlen]
    split
    case isTrue => rw [decide_eq_true_iff, slice, eq_comm]
    case isFalse hlong =>
      refine iff_of_false Bool.false_ne_true fun heq => hlong ?_
      have hle := congrArg List.length heq
      rw [List.length_drop, hlen] at hle
      omega

theorem afterMatch_iff : afterMatch markdown anchor i = true ↔
    anchor.after <+: markdown.drop (i + anchor.selectedText.length) := by
  rw [afterMatch]
  split
  case isTrue hempty => simp [hempty]
  case isFalse hne =>
    split
    case isTrue =>
      rw [decide_eq_true_iff, slice, List.drop_take, Nat.add_sub_cancel_left, List.prefix_iff_eq_take, eq_comm]
    case isFalse hlong =>
      refine iff_of_false Bool.false_ne_true fun hpre => hlong ?_
      have hle := hpre.length_le
      have hpos := List.length_pos_of_ne_nil hne
      rw [List.length_drop] at hle
      omega

/-- The test of the loop at an occurrence. -/
theorem match_iff (hsel : anchor.selectedText ≠ []) (hoccurs : OccursAt markdown anchor i) :
    (beforeMatch markdown anchor i && afterMatch markdown anchor i) = true ↔ Fits markdown anchor i := by
  have hle := hoccurs.length_le
  have hpos := List.length_pos_of_ne_nil hsel
  rw [List.length_drop] at hle
  rw [Bool.and_eq_true, beforeMatch_iff (by omega), afterMatch_iff]
  exact ⟨fun h => ⟨hoccurs, h.1, h.2⟩, fun h => ⟨h.before, h.after⟩⟩

theorem occursAt_iff (hsel : anchor.selectedText ≠ []) :
    OccursAt markdown anchor i ↔ i ∈ occurrences anchor.selectedText markdown := (mem_occurrences hsel).symm

/-- The rounds of the loop look at as many occurrences. -/
theorem searchContext_eq (hsel : anchor.selectedText ≠ []) (rounds offset : ℕ) :
    searchContext markdown anchor rounds offset =
      ((occurrencesFrom anchor.selectedText offset (markdown.drop offset)).take rounds).find?
        fun i => beforeMatch markdown anchor i && afterMatch markdown anchor i := by
  induction rounds generalizing offset with
  | zero => rfl
  | succ rounds ih =>
    rw [searchContext]
    cases hindex : indexOf? anchor.selectedText (markdown.drop offset) with
    | none =>
      rw [(indexOf?_eq_none_iff hsel offset).mp hindex]
      rfl
    | some idx =>
      rw [occurrencesFrom_of_indexOf? hsel hindex offset, List.take_succ_cons, List.find?_cons, List.drop_drop,
        ← Nat.add_assoc, ← ih]
      dsimp only
      cases beforeMatch markdown anchor (offset + idx) && afterMatch markdown anchor (offset + idx)
      · rfl
      · rfl

/-- The first of the counted occurrences that fits is returned, or else the first occurrence. -/
theorem resolveAnchor_eq (hsel : anchor.selectedText ≠ []) :
    resolveAnchor markdown anchor =
      (((occurrences anchor.selectedText markdown).take (count anchor.selectedText markdown)).find?
        fun i => beforeMatch markdown anchor i && afterMatch markdown anchor i).or
          (occurrences anchor.selectedText markdown).head? := by
  rw [resolveAnchor, if_neg hsel, indexOf?_eq_head? hsel]
  dsimp only
  split
  case isTrue hzero => rw [count_eq_zero_iff.mp hzero, List.take_nil, List.find?_nil, List.head?_nil, Option.none_or]
  case isFalse hpos =>
    obtain ⟨i, rest, hocc⟩ := List.exists_cons_of_ne_nil (mt count_eq_zero_iff.mpr hpos)
    split
    case isTrue hone =>
      rw [hone, hocc, List.take_succ_cons, List.take_zero, List.head?_cons, List.find?_singleton]
      split
      · rfl
      · rfl
    case isFalse =>
      split
      case isTrue =>
        rw [searchContext_eq hsel, List.drop_zero]
        rfl
      case isFalse hplain =>
        obtain ⟨hbefore, hafter⟩ := not_or.mp hplain
        obtain ⟨n, hn⟩ := Nat.exists_eq_succ_of_ne_zero hpos
        rw [hn, hocc, List.take_succ_cons, List.head?_cons, List.find?_cons, beforeMatch, afterMatch,
          if_pos (not_not.mp hbefore), if_pos (not_not.mp hafter)]
        rfl

/-- An occurrence that fits is returned when fewer occurrences come before it than are counted. -/
theorem resolveAnchor_of_fits (hsel : anchor.selectedText ≠ []) (hi : IsFirst (Fits markdown anchor) i) :
    resolveAnchor markdown anchor =
      if ((occurrences anchor.selectedText markdown).filter fun j => j < i).length <
          count anchor.selectedText markdown then some i
      else (occurrences anchor.selectedText markdown).head? := by
  have hfirst : ∀ j ∈ occurrences anchor.selectedText markdown, j < i →
      ¬ (beforeMatch markdown anchor j && afterMatch markdown anchor j) = true := by
    intro j hj hlt hmatch
    exact hi.2 j hlt ((match_iff hsel ((occursAt_iff hsel).mpr hj)).mp hmatch)
  rw [resolveAnchor_eq hsel, find?_take occurrences_sorted ((occursAt_iff hsel).mp hi.1.occurs)
    ((match_iff hsel hi.1.occurs).mpr hi.1) hfirst]
  split
  · rfl
  · rfl

/-- Without an occurrence that fits the first one is returned. -/
theorem resolveAnchor_of_not_fits (hsel : anchor.selectedText ≠ []) (hno : ∀ i, ¬ Fits markdown anchor i) :
    resolveAnchor markdown anchor = (occurrences anchor.selectedText markdown).head? := by
  rw [resolveAnchor_eq hsel, List.find?_eq_none.mpr, Option.none_or]
  intro i hi hmatch
  exact hno i ((match_iff hsel ((occursAt_iff hsel).mpr (List.mem_of_mem_take hi))).mp hmatch)

/-- The first occurrence. -/
theorem head?_occurrences (hsel : anchor.selectedText ≠ []) :
    (occurrences anchor.selectedText markdown).head? = some i ↔ IsFirst (OccursAt markdown anchor) i := by
  rw [List.head?_eq_some_iff]
  constructor
  · rintro ⟨rest, hocc⟩
    have hsorted : (occurrences anchor.selectedText markdown).Pairwise (· < ·) := occurrences_sorted
    rw [hocc] at hsorted
    refine ⟨(occursAt_iff hsel).mpr (hocc ▸ List.mem_cons_self), fun j hj hat => ?_⟩
    have hmem := (occursAt_iff hsel).mp hat
    rw [hocc] at hmem
    rcases List.mem_cons.mp hmem with rfl | hmem
    · exact Nat.lt_irrefl j hj
    · exact Nat.lt_asymm hj (List.rel_of_pairwise_cons hsorted hmem)
  · intro hi
    obtain ⟨j, rest, hocc⟩ := List.exists_cons_of_ne_nil (List.ne_nil_of_mem ((occursAt_iff hsel).mp hi.1))
    have hsorted : (occurrences anchor.selectedText markdown).Pairwise (· < ·) := occurrences_sorted
    rw [hocc] at hsorted
    have hmem := (occursAt_iff hsel).mp hi.1
    rw [hocc] at hmem
    rcases List.mem_cons.mp hmem with rfl | hmem
    · exact ⟨rest, hocc⟩
    · refine absurd ((occursAt_iff hsel).mpr ?_) (hi.2 j (List.rel_of_pairwise_cons hsorted hmem))
      rw [hocc]
      exact List.mem_cons_self

theorem resolveAnchor_eq_none_iff (hsel : anchor.selectedText ≠ []) :
    resolveAnchor markdown anchor = none ↔ ¬ anchor.selectedText <:+: markdown := by
  rw [resolveAnchor_eq hsel, Option.or_eq_none_iff, List.head?_eq_none_iff, occurrences_eq_nil_iff hsel]
  refine and_iff_right_of_imp fun hno => ?_
  rw [(occurrences_eq_nil_iff hsel).mpr hno, List.take_nil, List.find?_nil]

/-- The right occurrence is returned exactly when fewer occurrences come before the first one that fits than
there are occurrences that do not overlap. -/
theorem resolveAnchor_right_iff (markdown : Bytes) (anchor : Anchor) (hsel : anchor.selectedText ≠ []) :
    Right markdown anchor (resolveAnchor markdown anchor) ↔
      ∀ i, IsFirst (Fits markdown anchor) i →
        ((occurrences anchor.selectedText markdown).filter fun j => j < i).length <
          count anchor.selectedText markdown := by
  constructor
  · intro hright i hi
    have hresult := hright.fitting i hi
    rw [resolveAnchor_of_fits hsel hi] at hresult
    split at hresult
    case isTrue hlt => exact hlt
    case isFalse =>
      -- then the first occurrence is the one that fits, and none comes before it
      have hfirst := (head?_occurrences hsel).mp hresult
      have hnone : ((occurrences anchor.selectedText markdown).filter fun j => j < i) = [] := by
        refine List.filter_eq_nil_iff.mpr fun j hj hlt => ?_
        exact hfirst.2 j (of_decide_eq_true hlt) ((occursAt_iff hsel).mpr hj)
      rw [hnone, List.length_nil, Nat.pos_iff_ne_zero, Ne, count_eq_zero_iff]
      exact List.ne_nil_of_mem ((occursAt_iff hsel).mp hi.1.occurs)
  · intro hcount
    refine ⟨resolveAnchor_eq_none_iff hsel, fun i hi => ?_, fun hno i hi => ?_⟩
    · rw [resolveAnchor_of_fits hsel hi, if_pos (hcount i hi)]
    · rw [resolveAnchor_of_not_fits hsel hno, (head?_occurrences hsel).mpr hi]

end

/-- In three dashes two dashes are found twice, but counted once. -/
theorem dashes_resolved_wrong :
    ¬ Right (Utf8.encode "---".toList) ⟨Utf8.encode "--".toList, Utf8.encode "-".toList, [], 1⟩
        (resolveAnchor (Utf8.encode "---".toList) ⟨Utf8.encode "--".toList, Utf8.encode "-".toList, [], 1⟩) := by
  intro h
  have hfits : IsFirst (Fits (Utf8.encode "---".toList) ⟨Utf8.encode "--".toList, Utf8.encode "-".toList, [], 1⟩) 1 := by
    refine ⟨by decide, fun j hj => ?_⟩
    obtain rfl := Nat.lt_one_iff.mp hj
    decide
  exact absurd (h.fitting 1 hfits) (by decide)

/-- The second letter is told from the first one by the dash before it. -/
theorem resolveAnchor_right_second :
    Right (Utf8.encode "a-a-".toList) ⟨Utf8.encode "a".toList, Utf8.encode "-".toList, [], 1⟩
      (resolveAnchor (Utf8.encode "a-a-".toList) ⟨Utf8.encode "a".toList, Utf8.encode "-".toList, [], 1⟩) := by
  refine (resolveAnchor_right_iff _ _ (by decide)).mpr fun i hi => ?_
  have hfits : IsFirst (Fits (Utf8.encode "a-a-".toList) ⟨Utf8.encode "a".toList, Utf8.encode "-".toList, [], 1⟩) 2 := by
    refine ⟨by decide, fun j hj => ?_⟩
    obtain rfl | rfl : j = 0 ∨ j = 1 := by omega
    · decide
    · decide
  obtain rfl := hi.unique hfits
  decide

/-! ## Anchors made from a text -/

/-- The anchor of `penpal_create_thread` for a selected text that is not empty. -/
def createAnchor (markdown selectedText : Bytes) : Anchor :=
  match indexOf? selectedText markdown with
  | none => ⟨selectedText, [], [], 0⟩
  | some idx =>
    let afterStart := idx + selectedText.length
    { selectedText
      before := slice markdown (idx - 80) idx
      after := slice markdown afterStart (min (afterStart + 80) markdown.length)
      startLine := lineOf markdown idx }

/-- An anchor that was saved and loaded: the encoder repairs strings that are not UTF-8. -/
def stored (anchor : Anchor) : Anchor where
  selectedText := Utf8.repair anchor.selectedText
  before := Utf8.repair anchor.before
  after := Utf8.repair anchor.after
  startLine := anchor.startLine

/-- An occurrence with the context that the anchor was made with is returned. -/
def Follows (text : Bytes) (anchor : Anchor) (r : Option ℕ) : Prop := ∃ i, r = some i ∧ Fits text anchor i

/-- Saving has not changed what stands next to the selected text. -/
def KeepsContext (anchor : Anchor) : Prop :=
  anchor.before <:+ (stored anchor).before ∧ anchor.after <+: (stored anchor).after

/-- The occurrences that `ResolveAnchor` looks at. -/
def examined (text : Bytes) (anchor : Anchor) : List ℕ :=
  (occurrences anchor.selectedText text).take (count anchor.selectedText text)

/-- One of the occurrences that are looked at has the stored context, and this is still that of the anchor; or
none has it, and the first occurrence has that of the anchor. -/
def ContextDecides (text : Bytes) (anchor : Anchor) : Prop :=
  (KeepsContext anchor ∧ ∃ i ∈ examined text anchor, Fits text (stored anchor) i) ∨
    (∀ i ∈ examined text anchor, ¬ Fits text (stored anchor) i) ∧
      ∃ i, IsFirst (OccursAt text anchor) i ∧ Fits text anchor i

section

variable {text : Bytes} {anchor : Anchor}

/-- Where the stored context is found, the context of the anchor is, if saving has kept it, and only then. -/
theorem fits_of_fits_stored (hsel : (stored anchor).selectedText = anchor.selectedText)
    (h : Fits text (stored anchor) i) : Fits text anchor i ↔ KeepsContext anchor := by
  have hoccurs : OccursAt text anchor i := by
    rw [OccursAt, ← hsel]
    exact h.occurs
  have hafter : (stored anchor).after <+: text.drop (i + anchor.selectedText.length) := hsel ▸ h.after
  constructor
  · intro hfits
    exact ⟨List.suffix_of_suffix_length_le hfits.before h.before (Utf8.length_le_repair _),
      List.prefix_of_prefix_length_le hfits.after hafter (Utf8.length_le_repair _)⟩
  · intro hkeeps
    exact ⟨hoccurs, hkeeps.1.trans h.before, hkeeps.2.trans hafter⟩

theorem mem_examined (hsel : anchor.selectedText ≠ []) (hi : i ∈ examined text anchor) :
    OccursAt text anchor i := (occursAt_iff hsel).mpr (List.mem_of_mem_take hi)

/-- What is found for a stored anchor. -/
theorem follows_iff (hsel : anchor.selectedText ≠ [])
    (hstored : (stored anchor).selectedText = anchor.selectedText) :
    Follows text anchor (resolveAnchor text (stored anchor)) ↔ ContextDecides text anchor := by
  have hsel' : (stored anchor).selectedText ≠ [] := hstored ▸ hsel
  have hoccurs : ∀ i, OccursAt text (stored anchor) i ↔ OccursAt text anchor i := by
    intro i
    rw [OccursAt, OccursAt, hstored]
  have hexamined : examined text (stored anchor) = examined text anchor := by
    rw [examined, examined, hstored]
  have hresult : resolveAnchor text (stored anchor) = ((examined text anchor).find?
      fun i => beforeMatch text (stored anchor) i && afterMatch text (stored anchor) i).or
        (occurrences anchor.selectedText text).head? := by
    rw [resolveAnchor_eq hsel', ← hexamined, ← hstored, examined, hstored]
  have hmatch : ∀ i ∈ examined text anchor,
      ((beforeMatch text (stored anchor) i && afterMatch text (stored anchor) i) = true ↔
        Fits text (stored anchor) i) :=
    fun i hi => match_iff hsel' ((hoccurs i).mpr (mem_examined hsel hi))
  rw [hresult]
  -- `resolveAnchor` takes the first that fits the stored context, else the first at all
  cases hfind : (examined text anchor).find?
      fun i => beforeMatch text (stored anchor) i && afterMatch text (stored anchor) i with
  | some i =>
    have hi := List.mem_of_find?_eq_some hfind
    have htest := List.find?_some hfind
    have hfits := (hmatch i hi).mp htest
    have hkeeps := fits_of_fits_stored hstored hfits
    rw [Option.some_or, Follows]
    simp only [Option.some.injEq, exists_eq_left', hkeeps]
    constructor
    · exact fun h => .inl ⟨h, i, hi, hfits⟩
    · rintro (⟨h, -⟩ | ⟨hno, -⟩)
      · exact h
      · exact absurd hfits (hno i hi)
  | none =>
    have hno : ∀ i ∈ examined text anchor, ¬ Fits text (stored anchor) i :=
      fun i hi hfits => List.find?_eq_none.mp hfind i hi ((hmatch i hi).mpr hfits)
    rw [Option.none_or, Follows]
    simp only [head?_occurrences hsel]
    constructor
    · exact fun h => .inr ⟨hno, h⟩
    · rintro (⟨-, i, hi, hfits⟩ | ⟨-, h⟩)
      · exact absurd hfits (hno i hi)
      · exact h

end

theorem createAnchor_selectedText (markdown selectedText : Bytes) :
    (createAnchor markdown selectedText).selectedText = selectedText := by
  rw [createAnchor]
  split
  · rfl
  · rfl

/-- The anchor of an agent, whose strings are UTF-8. -/
def agentAnchor (markdown selectedText : List Char) : Anchor :=
  createAnchor (Utf8.encode markdown) (Utf8.encode selectedText)

/-- When the anchor of an agent is found behind a new beginning of the text. -/
theorem agentAnchor_follows_iff (markdown selectedText : List Char) (p : Bytes) (hsel : selectedText ≠ []) :
    Follows (p ++ Utf8.encode markdown) (agentAnchor markdown selectedText)
        (resolveAnchor (p ++ Utf8.encode markdown) (stored (agentAnchor markdown selectedText))) ↔
      ContextDecides (p ++ Utf8.encode markdown) (agentAnchor markdown selectedText) := by
  have hselected : (agentAnchor markdown selectedText).selectedText = Utf8.encode selectedText :=
    createAnchor_selectedText _ _
  apply follows_iff
  · rw [hselected]
    exact Utf8.encode_ne_nil hsel
  · rw [stored, hselected]
    exact Utf8.repair_encode selectedText

/-- A text with a letter of two bytes 80 bytes before the selection. -/
def cutMarkdown : List Char := 'é' :: List.replicate 79 'x' ++ ['s']

/-- Behind another occurrence of the selection the anchor is not found: the letter was cut, and repaired. -/
theorem agentAnchor_lost :
    ¬ Follows ([115] ++ Utf8.encode cutMarkdown) (agentAnchor cutMarkdown ['s'])
        (resolveAnchor ([115] ++ Utf8.encode cutMarkdown) (stored (agentAnchor cutMarkdown ['s']))) := by
  have hresult : resolveAnchor ([115] ++ Utf8.encode cutMarkdown) (stored (agentAnchor cutMarkdown ['s'])) = some 0 := by
    decide
  have hno : ¬ Fits ([115] ++ Utf8.encode cutMarkdown) (agentAnchor cutMarkdown ['s']) 0 := by decide
  rw [hresult]
  rintro ⟨i, hi, hfits⟩
  obtain rfl := Option.some.inj hi
  exact hno hfits

/-- An anchor whose context is not cut is found. -/
theorem agentAnchor_follows_plain :
    Follows ([115] ++ Utf8.encode ['x', 's']) (agentAnchor ['x', 's'] ['s'])
      (resolveAnchor ([115] ++ Utf8.encode ['x', 's']) (stored (agentAnchor ['x', 's'] ['s']))) :=
  (agentAnchor_follows_iff ['x', 's'] ['s'] [115] (by decide)).mpr
    (.inl ⟨⟨by decide, by decide⟩, 2, by decide, by decide⟩)

end Builderbot.Penpal.Comments
