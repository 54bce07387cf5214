import Builderbot.Penpal.MarkedDocument

/-!
# Comment highlights

The transformer of `apps/penpal/frontend/src/components/rehypeCommentHighlights.ts`. A visitor goes through the elements of
a tree in preorder, marks the texts that were selected for comments, and carries what is left of a selection over to the
elements that follow. Code blocks and diagrams are annotated instead, and images between marks are wrapped in a mark.

The traversal is that of `unist-util-visit`, of which only the order and the meaning of what a visitor returns are used.
`highlighting_keeps_document` says that the document stays as it is up to the marks.
-/

namespace Builderbot.Penpal.Highlights

open DiffViewer

/-- A highlight of which a part is to be marked in the elements that follow. -/
structure Continuing where
  highlight : ThreadHighlight
  remaining : JsString
  mermaidCrossed : Bool
deriving DecidableEq, Repr

/-- What the visitor keeps: `continuing`, a map by the thread in the order of insertion, and `applied`. -/
structure State where
  continuing : List Continuing
  applied : List String
deriving DecidableEq, Repr

/-- `continuing.set`. -/
def State.setContinuing (s : State) (c : Continuing) : State :=
  if s.continuing.any fun d => d.highlight.threadId == c.highlight.threadId then
    { s with continuing := s.continuing.map fun d => if d.highlight.threadId == c.highlight.threadId then c else d }
  else { s with continuing := s.continuing ++ [c] }

/-- `applied.add`, for a thread that was not applied. -/
def State.apply (s : State) (threadId : String) : State := { s with applied := threadId :: s.applied }

/-- What is left when a part of the remaining text was found, if anything. -/
def Continuing.advance (c : Continuing) (consumed : ℕ) : Option Continuing :=
  let newRemaining := trim (c.remaining.drop consumed)
  if newRemaining = [] then none else some { c with remaining := newRemaining }

/-- The highlights that begin on a line, in their order. -/
def byLine (highlights : List ThreadHighlight) (line : ℤ) : List ThreadHighlight :=
  highlights.filter fun h => h.startLine == line

/-- The highlights that begin on a line or up to three lines before. -/
def nearby (highlights : List ThreadHighlight) (line : ℕ) : List ThreadHighlight :=
  (List.range 4).flatMap fun lineOffset => byLine highlights (line - lineOffset)

/-! ## Marking the text of an element -/

/-- The stretch of the normalised text is marked. -/
def markMatch (highlight : ThreadHighlight) (children : List Node) (matchIndex matchLength : ℕ) : List Node :=
  let text := textOf children
  let normToOrig := buildNormToOrigMap text (normalizeHast text)
  insertMarks highlight (origAt normToOrig matchIndex) (origAt normToOrig (matchIndex + matchLength))
    (collectTextNodes children) children

/-- What `applyHighlight` looks for and finds in an element. -/
def highlightMatch (children : List Node) (highlight : ThreadHighlight) : Option Match :=
  if collectTextNodes children = [] then none
  else findHighlight (normalizeHast (textOf children)) (normalizeSelected highlight.selectedText)
    (highlight.occurrenceIndex.getD 0)

/-- What `applyHighlight` does to the children and returns. -/
structure Applied where
  children : List Node
  remaining : Option JsString
  matched : Bool

def applyHighlight (children : List Node) (highlight : ThreadHighlight) : Applied :=
  match highlightMatch children highlight with
  | none => ⟨children, none, false⟩
  | some m =>
    let remaining := trim ((normalizeSelected highlight.selectedText).drop m.matchLength)
    ⟨markMatch highlight children m.matchIndex m.matchLength,
      if m.isCrossElement && 1 ≤ remaining.length then some remaining else none, true⟩

def BLOCK_TAGS : List String :=
  ["li", "p", "div", "blockquote", "pre", "ul", "ol", "table", "tr", "td", "th", "section",
    "h1", "h2", "h3", "h4", "h5", "h6"]

def Node.isBlock : Node → Bool
  | .element e _ => BLOCK_TAGS.contains e.tagName
  | _ => false

/-- The children after `applyContinuation`, and the number of characters that it returns. -/
def applyContinuation (children : List Node) (c : Continuing) : List Node × ℕ :=
  if children.any Node.isBlock ∨ collectTextNodes children = [] then (children, 0)
  else
    match findContinuation (normalizeHast (textOf children)) c.remaining c.mermaidCrossed with
    | none => (children, 0)
    | some m => (markMatch c.highlight children m.matchIndex m.matchLength, m.skippedChars + m.matchLength)

/-! ## Images -/

def wrapNodeInMark (e : Element) (children : List Node) (highlight : ThreadHighlight) : Node :=
  .element (markElement highlight) [.element e children]

/-- `findNearestMark`, over the children in the direction of the search. -/
def findNearestMark : List Node → Option Element
  | .element e _ :: _ => if e.tagName == "mark" then some e else none
  | .text v :: rest => if isBlank v then findNearestMark rest else none
  | _ => none

/-- The mark for an image between two marks of one thread. -/
def mediaMark (markBefore : Element) : Element :=
  let pending := (markBefore.properties.className.getD []).contains "pending-highlight"
  ⟨"mark", ⟨some (markClasses pending), markBefore.properties.dataThreadId, none, none⟩, none⟩

/-- The child with an index, wrapped when it is an image between two marks of one thread. -/
def wrapImage (children : List Node) (i : ℕ) : List Node :=
  match children[i]?, findNearestMark (children.take i).reverse, findNearestMark (children.drop (i + 1)) with
  | some (.element e inner), some markBefore, some markAfter =>
    if e.tagName == "img" && markBefore.properties.dataThreadId == markAfter.properties.dataThreadId then
      children.set i (.element (mediaMark markBefore) [.element e inner])
    else children
  | _, _, _ => children

/-- The loop of `wrapInlineMedia` over the children before an index. -/
def wrapInlineMediaFrom : ℕ → List Node → List Node
  | 0, children => children
  | i + 1, children => wrapInlineMediaFrom i (wrapImage children i)

def wrapInlineMedia (children : List Node) : List Node := wrapInlineMediaFrom children.length children

/-! ## Code blocks and diagrams -/

/-- The first child that is a code element. -/
def codeChild? (children : List Node) : Option (Element × List Node) :=
  children.findSome? fun
    | .element e inner => if e.tagName == "code" then some (e, inner) else none
    | _ => none

/-- Other properties for the first child that is a code element. -/
def annotateCode (f : Properties → Properties) : List Node → List Node
  | [] => []
  | .element e inner :: rest =>
    if e.tagName == "code" then .element { e with properties := f e.properties } inner :: rest
    else .element e inner :: annotateCode f rest
  | n :: rest => n :: annotateCode f rest

/-- The first highlight that is continued behind its line, which has crossed a diagram now. -/
def crossMermaid (line : ℕ) : List Continuing → List Continuing × Option MermaidHighlight
  | [] => ([], none)
  | c :: rest =>
    if c.highlight.startLine < line then
      ({ c with mermaidCrossed := true } :: rest, some ⟨c.highlight.threadId, c.highlight.pending⟩)
    else
      let r := crossMermaid line rest
      (c :: r.1, r.2)

/-- The highlights that begin on a diagram: the first one annotates it, unless it is annotated. -/
def startMermaid : List ThreadHighlight → State → Option MermaidHighlight → State × Option MermaidHighlight
  | [], s, annotated => (s, annotated)
  | h :: rest, s, annotated =>
    if s.applied.contains h.threadId then startMermaid rest s annotated
    else
      let s := s.apply h.threadId
      let normSelected := normalizeSelected h.selectedText
      let s := if 3 ≤ normSelected.length then s.setContinuing ⟨h, normSelected, true⟩ else s
      startMermaid rest s (annotated.or (some ⟨h.threadId, h.pending⟩))

/-- A diagram is annotated with the highlight that covers it. -/
def visitMermaid (highlights : List ThreadHighlight) (s : State) (line : Option ℕ) (children : List Node) :
    State × List Node :=
  match line with
  | none => (s, children)
  | some line =>
    let crossed := crossMermaid line s.continuing
    let r := startMermaid (nearby highlights line) { s with continuing := crossed.1 } crossed.2
    match r.2 with
    | none => (r.1, children)
    | some annotated => (r.1, annotateCode (fun p => { p with dataMermaidHighlight := some annotated }) children)

/-- The stretch of a code text for a match in the normalised one. -/
def codeStretch (codeText : JsString) (m : ContinuedMatch) : JsString :=
  let normToOrig := buildNormToOrigMap codeText (normalizeHast codeText)
  (codeText.take (origAt normToOrig (m.matchIndex + m.matchLength))).drop (origAt normToOrig m.matchIndex)

/-- The highlights that are continued into a code block, and what it holds of them. -/
def continueInCode (codeText : JsString) (line : ℕ) : List Continuing → List Continuing × List CrossHighlight
  | [] => ([], [])
  | c :: rest =>
    let r := continueInCode codeText line rest
    if line ≤ c.highlight.startLine then (c :: r.1, r.2)
    else
      match matchTextInCode (normalizeHast codeText) c.remaining 0 with
      | none => (c :: r.1, r.2)
      | some m =>
        ((c.advance (m.skippedChars + m.matchLength)).toList ++ r.1,
          ⟨c.highlight.threadId, codeStretch codeText m, c.highlight.pending⟩ :: r.2)

/-- The highlights that begin in a code block, and what it holds of those that go on behind it. -/
def startInCode (codeText : JsString) : List ThreadHighlight → State → State × List CrossHighlight
  | [], s => (s, [])
  | h :: rest, s =>
    if s.applied.contains h.threadId then startInCode codeText rest s
    else
      let normSelected := normalizeSelected h.selectedText
      match matchTextInCode (normalizeHast codeText) normSelected (h.occurrenceIndex.getD 0) with
      | none => startInCode codeText rest s
      | some m =>
        let s := s.apply h.threadId
        if normSelected.length ≤ m.matchLength then startInCode codeText rest s
        else
          let remaining := trim (normSelected.drop m.matchLength)
          let s := if 1 ≤ remaining.length then s.setContinuing ⟨h, remaining, false⟩ else s
          let r := startInCode codeText rest s
          (r.1, ⟨h.threadId, codeStretch codeText m, h.pending⟩ :: r.2)

/-- `.replace(/\n$/, '')`. -/
def stripNewline (s : JsString) : JsString := if s.getLast? = some 0x0A then s.dropLast else s

/-- `handleCodeBlock`, with `none` where it returns `false`. -/
def handleCodeBlock (highlights : List ThreadHighlight) (s : State) (line : Option ℕ) (children : List Node) :
    Option (State × List Node) :=
  match codeChild? children with
  | none => none
  | some (code, inner) =>
    if (code.properties.className.getD []).any fun c => "language-".toList.isPrefixOf c.toList then
      let codeText := stripNewline (textOf inner)
      if codeText = [] then some (s, children)
      else
        match line with
        | none => some (s, children)
        | some line =>
          let codeLineCount := codeText.count 0x0A + 1
          let continued := continueInCode codeText line s.continuing
          let started := startInCode codeText
            ((List.range (codeLineCount + 1)).flatMap fun lineOffset => byLine highlights (line + lineOffset))
            { s with continuing := continued.1 }
          let crossHighlights := continued.2 ++ started.2
          if crossHighlights = [] then some (started.1, children)
          else some (started.1, annotateCode (fun p => { p with dataCrossHighlights := some crossHighlights }) children)
    else none

/-- The first child that is a code element shows a diagram. -/
def isMermaid (children : List Node) : Bool :=
  match codeChild? children with
  | none => false
  | some (code, _) => (code.properties.className.getD []).contains "language-mermaid"

/-- The branch for `pre`, with `none` where it is left. -/
def visitPre (highlights : List ThreadHighlight) (s : State) (line : Option ℕ) (children : List Node) :
    Option (State × List Node) :=
  if isMermaid children then some (visitMermaid highlights s line children)
  else handleCodeBlock highlights s line children

/-! ## The visitor -/

/-- The loop over `continuing`: what is continued still, the children, and whether anything was marked. -/
def continueHighlights (line : ℕ) : List Continuing → List Node → List Continuing × List Node × Bool
  | [], children => ([], children, false)
  | c :: rest, children =>
    if line ≤ c.highlight.startLine then
      let r := continueHighlights line rest children
      (c :: r.1, r.2)
    else
      let (children, matched) := applyContinuation children c
      let r := continueHighlights line rest children
      if 0 < matched then ((c.advance matched).toList ++ r.1, r.2.1, true) else (c :: r.1, r.2)

/-- The loop over the highlights that begin near the element. -/
def startHighlights : List ThreadHighlight → State → List Node → State × List Node
  | [], s, children => (s, children)
  | h :: rest, s, children =>
    if s.applied.contains h.threadId then startHighlights rest s children
    else
      let result := applyHighlight children h
      let s := s.apply h.threadId
      let normSelected := normalizeSelected h.selectedText
      let s := match result.remaining with
        | some remaining => s.setContinuing ⟨h, remaining, false⟩
        | none => if !result.matched && 3 ≤ normSelected.length then s.setContinuing ⟨h, normSelected, false⟩ else s
      startHighlights rest s (if result.matched then wrapInlineMedia result.children else result.children)

/-- What a visitor returns, with the element as it leaves it: `SKIP` with the node that is in its place, or nothing, with
its children. -/
inductive Step where
  | skip (s : State) (n : Node)
  | next (s : State) (children : List Node)

/-- The part of the visitor behind the branches for code. -/
def visitElement (highlights : List ThreadHighlight) (s : State) (e : Element) (children : List Node) : Step :=
  match e.sourceLine with
  | none => .next s children
  | some line =>
    match if isMediaOnlyBlock children then s.continuing.find? fun c => decide (c.highlight.startLine < (line : ℤ))
      else none with
    | some c => .skip s (wrapNodeInMark e children c.highlight)
    | none =>
      let (continuing, children, continuationMatched) := continueHighlights line s.continuing children
      let children := if continuationMatched then wrapInlineMedia children else children
      let r := startHighlights (nearby highlights line) { s with continuing := continuing } children
      .next r.1 r.2

/-- The visitor, for an element below the root. -/
def visitor (highlights : List ThreadHighlight) (s : State) (e : Element) (children : List Node) : Step :=
  if e.tagName == "code" then .skip s (.element e children)
  else
    match if e.tagName == "pre" then visitPre highlights s e.sourceLine children else none with
    | some (s, children) => .skip s (.element e children)
    | none => visitElement highlights s e children

/-- A traversal with a visitor, which may not end. -/
abbrev Traversal := (State → Element → List Node → Step) → State → List Node → Option (State × List Node)

/-- `rehypeCommentHighlights`, over the children of the root. -/
def rehypeCommentHighlights (visit : Traversal) (highlights : List ThreadHighlight) (tree : List Node) :
    Option (List Node) :=
  if highlights = [] then some tree else (visit (visitor highlights) ⟨[], []⟩ tree).map Prod.snd

/-! ## What the visitor changes -/

/-- Marks only. -/
abbrev Keeps (a b : List Node) : Prop := Marked Node.holdsImages a b

/-- The stretch that `applyHighlight` matches in the normalised text of an element. -/
def matchedStretch (children : List Node) (m : Match) : JsString :=
  ((normalizeHast (textOf children)).take (m.matchIndex + m.matchLength)).drop m.matchIndex

/-- What is marked for a stretch of the normalised text normalises to it. -/
theorem markMatch_held (highlight : ThreadHighlight) (children : List Node) {matchIndex matchLength : ℕ}
    (h : matchIndex + matchLength ≤ (normalizeHast (textOf children)).length) :
    ∃ held, NewMarks highlight children (markMatch highlight children matchIndex matchLength) held ∧
      normalizeHast held.flatten =
        ((normalizeHast (textOf children)).take (matchIndex + matchLength)).drop matchIndex := by
  rw [markMatch, insertMarks_eq]
  obtain ⟨held, hheld, hflat⟩ := @newMarks_markedFrom highlight _ _ children 0
  exact ⟨held, hheld, by rw [hflat]; exact normalizeHast_slice (textOf children) (Nat.le_add_right _ _) h⟩

/-- A match inside one text splits it. -/
theorem markMatch_keeps (highlight : ThreadHighlight) (children : List Node) (matchIndex matchLength : ℕ) :
    Keeps children (markMatch highlight children matchIndex matchLength) := by
  rw [markMatch, insertMarks_eq]
  obtain ⟨held, hheld, -⟩ := @newMarks_markedFrom highlight _ _ children 0
  exact hheld.marked _

variable {children : List Node}

theorem highlightMatch_le {highlight : ThreadHighlight} {m : Match}
    (h : highlightMatch children highlight = some m) :
    m.matchIndex + m.matchLength ≤ (normalizeHast (textOf children)).length := by
  rw [highlightMatch] at h
  split at h
  · cases h
  · exact findHighlight_le h

/-- The marks of `applyHighlight` hold what it matched. -/
theorem applyHighlight_held {highlight : ThreadHighlight} {m : Match}
    (h : highlightMatch children highlight = some m) :
    ∃ held, NewMarks highlight children (applyHighlight children highlight).children held ∧
      normalizeHast held.flatten = matchedStretch children m := by
  rw [applyHighlight, h]
  exact markMatch_held highlight children (highlightMatch_le h)

/-- A highlight keeps the text of the children. -/
theorem applyHighlight_keeps (children : List Node) (highlight : ThreadHighlight) :
    Keeps children (applyHighlight children highlight).children := by
  rw [applyHighlight]
  split
  · exact Marked.refl children
  · exact markMatch_keeps highlight children _ _

theorem applyContinuation_keeps (children : List Node) (c : Continuing) :
    Keeps children (applyContinuation children c).1 := by
  rw [applyContinuation]
  split
  · exact Marked.refl children
  · split
    · exact Marked.refl children
    · exact markMatch_keeps c.highlight children _ _

/-- A node is wrapped. -/
theorem Marked.wrap_node {n : Node} {m : Element} (hn : n.holdsImages = true) (hmark : IsMark m) (rest : List Node) :
    Keeps (n :: rest) (.element m [n] :: rest) :=
  .wrap hn hmark (Marked.refl [n]) (Marked.refl rest)

/-- An image is wrapped, and stays. -/
theorem wrapImage_keeps (children : List Node) (i : ℕ) : Keeps children (wrapImage children i) := by
  rw [wrapImage]
  split
  case h_1 e inner markBefore markAfter hat _ _ =>
    split
    case isTrue himage =>
      obtain ⟨hlt, hget⟩ := List.getElem?_eq_some_iff.mp hat
      have hholds : (Node.element e inner).holdsImages = true := by
        rw [Bool.and_eq_true] at himage
        rw [Node.holdsImages, himage.1, Bool.true_or]
      have hwrap := (Marked.refl (children.take i)).append
        (Marked.wrap_node hholds (m := mediaMark markBefore) ⟨rfl, rfl⟩ (children.drop (i + 1)))
      rw [← hget, ← List.drop_eq_getElem_cons hlt, List.take_append_drop] at hwrap
      rw [List.set_eq_take_append_cons_drop, if_pos hlt]
      rw [hget] at hwrap
      exact hwrap
    case isFalse => exact Marked.refl children
  case h_2 => exact Marked.refl children

theorem wrapInlineMedia_keeps (children : List Node) : Keeps children (wrapInlineMedia children) := by
  have hloop : ∀ i nodes, Keeps nodes (wrapInlineMediaFrom i nodes) := by
    intro i
    induction i with
    | zero => exact Marked.refl
    | succ i ih => exact fun nodes => (wrapImage_keeps nodes i).trans (ih _)
  exact hloop _ children

theorem annotateCode_keeps (f : Properties → Properties)
    (hf : ∀ e : Element, e.Annotated { e with properties := f e.properties }) (children : List Node) :
    Keeps children (annotateCode f children) := by
  induction children with
  | nil => exact .nil
  | cons n rest ih =>
    cases n with
    | text v => exact .text (.single v) ih
    | other v => exact .other v ih
    | element e inner =>
      rw [annotateCode]
      split
      · exact .element (hf e) (Marked.refl inner) (Marked.refl rest)
      · exact .element e.annotated_refl (Marked.refl inner) ih

variable (highlights : List ThreadHighlight)

/-- A diagram only gets attributes. -/
theorem visitMermaid_keeps (s : State) (line : Option ℕ) (children : List Node) :
    Keeps children (visitMermaid highlights s line children).2 := by
  cases line with
  | none => exact Marked.refl children
  | some line =>
    dsimp only [visitMermaid]
    split
    · exact Marked.refl children
    · exact annotateCode_keeps _ (fun e => ⟨_, _, rfl⟩) children

variable {children' : List Node}

/-- A code block only gets attributes. -/
theorem handleCodeBlock_keeps {highlights : List ThreadHighlight} {s s' : State} {line : Option ℕ}
    (h : handleCodeBlock highlights s line children = some (s', children')) :
    Keeps children children' := by
  rw [handleCodeBlock] at h
  split at h
  case h_1 => cases h
  case h_2 code inner _ =>
    split at h
    case isFalse => cases h
    case isTrue =>
      dsimp only at h
      split at h
      case isTrue =>
        obtain ⟨-, rfl⟩ := Prod.mk.inj (Option.some.inj h)
        exact Marked.refl children
      case isFalse =>
        cases line with
        | none =>
          obtain ⟨-, rfl⟩ := Prod.mk.inj (Option.some.inj h)
          exact Marked.refl children
        | some line =>
          dsimp only at h
          split at h
          · obtain ⟨-, rfl⟩ := Prod.mk.inj (Option.some.inj h)
            exact Marked.refl children
          · obtain ⟨-, rfl⟩ := Prod.mk.inj (Option.some.inj h)
            exact annotateCode_keeps _ (fun e => ⟨_, _, rfl⟩) children

theorem visitPre_keeps {highlights : List ThreadHighlight} {s s' : State} {line : Option ℕ}
    (h : visitPre highlights s line children = some (s', children')) :
    Keeps children children' := by
  rw [visitPre] at h
  split at h
  · have hkeeps := visitMermaid_keeps highlights s line children
    rwa [Option.some.inj h] at hkeeps
  · exact handleCodeBlock_keeps h

/-- One continued highlight after the other. -/
theorem continueHighlights_keeps (line : ℕ) (cs : List Continuing) (children : List Node) :
    Keeps children (continueHighlights line cs children).2.1 := by
  induction cs generalizing children with
  | nil => exact Marked.refl children
  | cons c rest ih =>
    rw [continueHighlights]
    split
    · exact ih children
    · have hkeeps := (applyContinuation_keeps children c).trans (ih _)
      dsimp only
      split
      · exact hkeeps
      · exact hkeeps

/-- One new highlight after the other. -/
theorem startHighlights_keeps (hs : List ThreadHighlight) (s : State) (children : List Node) :
    Keeps children (startHighlights hs s children).2 := by
  induction hs generalizing s children with
  | nil => exact Marked.refl children
  | cons h rest ih =>
    rw [startHighlights]
    split
    · exact ih s children
    · refine Marked.trans ?_ (ih _ _)
      split
      · exact (applyHighlight_keeps children h).trans (wrapInlineMedia_keeps _)
      · exact applyHighlight_keeps children h

/-- What a step may do to an element: marks, below the element only when it has a line. -/
def Step.Keeps (e : Element) (children : List Node) : Step → Prop
  | .skip _ n => Highlights.Keeps [.element e children] [n]
  | .next _ children' => Highlights.Keeps children children' ∧ (e.sourceLine = none → children' = children)

/-- One case for each kind of element. -/
theorem visitElement_keeps (s : State) (e : Element) (children : List Node) :
    (visitElement highlights s e children).Keeps e children := by
  rw [visitElement]
  split
  case h_1 hline => exact ⟨Marked.refl children, fun _ => rfl⟩
  case h_2 line hline =>
    split
    case h_1 c hmedia =>
      have honly : isMediaOnlyBlock children = true := by
        by_contra hno
        rw [if_neg hno] at hmedia
        cases hmedia
      exact Marked.wrap_node (by rw [Node.holdsImages, honly, Bool.or_true]) ⟨rfl, rfl⟩ []
    case h_2 =>
      refine ⟨?_, fun hnone => absurd (hline.symm.trans hnone) (Option.some_ne_none line)⟩
      refine Marked.trans ?_ (startHighlights_keeps _ _ _)
      split
      · exact (continueHighlights_keeps line _ children).trans (wrapInlineMedia_keeps _)
      · exact continueHighlights_keeps line _ children

theorem visitor_keeps (s : State) (e : Element) (children : List Node) :
    (visitor highlights s e children).Keeps e children := by
  rw [visitor]
  split
  · exact Marked.refl _
  · split
    case h_1 s' children' hpre =>
      split at hpre
      · exact .element e.annotated_refl (visitPre_keeps hpre) .nil
      · cases hpre
    case h_2 => exact visitElement_keeps highlights s e children

/-! ## The traversal -/

/-- A traversal in preorder: the visitor sees an element before what is below it and behind it, `SKIP` passes over what is
below, and what it leaves below is visited otherwise. -/
structure IsPreorder (visit : Traversal) : Prop where
  nil (f : State → Element → List Node → Step) (s : State) : visit f s [] = some (s, [])
  text (f : State → Element → List Node → Step) (s : State) (v : JsString) (rest : List Node) :
    visit f s (.text v :: rest) = (visit f s rest).map fun r => (r.1, .text v :: r.2)
  other (f : State → Element → List Node → Step) (s : State) (v : JsString) (rest : List Node) :
    visit f s (.other v :: rest) = (visit f s rest).map fun r => (r.1, .other v :: r.2)
  skip {f : State → Element → List Node → Step} {s s' : State} {e : Element} {children : List Node} {n : Node}
    (hstep : f s e children = .skip s' n) (rest : List Node) :
    visit f s (.element e children :: rest) = (visit f s' rest).map fun r => (r.1, n :: r.2)
  next {f : State → Element → List Node → Step} {s s' : State} {e : Element} {children children' : List Node}
    (hstep : f s e children = .next s' children') (rest : List Node) :
    visit f s (.element e children :: rest) = (visit f s' children').bind fun below =>
      (visit f below.1 rest).map fun r => (r.1, .element e below.2 :: r.2)

mutual

/-- The number of nodes at a node and below it. -/
def Node.size : Node → ℕ
  | .text _ => 1
  | .other _ => 1
  | .element _ children => sizeOfNodes children + 1

def sizeOfNodes : List Node → ℕ
  | [] => 0
  | n :: rest => n.size + sizeOfNodes rest

end

theorem Node.size_pos (n : Node) : 0 < n.size := by
  cases n with
  | text v => exact Nat.one_pos
  | other v => exact Nat.one_pos
  | element e children => exact Nat.succ_pos _

/-- The nodes behind a node are fewer. -/
theorem rest_lt (n : Node) (rest : List Node) :
    Prod.Lex (· < ·) (· < ·) (linedIn rest, sizeOfNodes rest) (linedIn (n :: rest), sizeOfNodes (n :: rest)) := by
  have hsize : sizeOfNodes rest < sizeOfNodes (n :: rest) := by
    have hpos := n.size_pos
    rw [sizeOfNodes]
    omega
  rw [Prod.lex_def, linedIn]
  omega

/-- What a step leaves below an element has an element with a line less, or is what was below. -/
theorem next_lt {highlights : List ThreadHighlight} {s s' : State} {e : Element}
    (hstep : visitor highlights s e children = .next s' children') (rest : List Node) :
    Prod.Lex (· < ·) (· < ·) (linedIn children', sizeOfNodes children')
      (linedIn (.element e children :: rest), sizeOfNodes (.element e children :: rest)) := by
  have hkeeps := visitor_keeps highlights s e children
  rw [hstep] at hkeeps
  have hlined := hkeeps.1.lined_eq
  rw [Prod.lex_def, linedIn, Node.lined, sizeOfNodes, Node.size, hlined]
  cases hline : e.sourceLine with
  | none =>
    rw [hkeeps.2 hline]
    rw [Option.isSome_none, if_neg Bool.false_ne_true]
    omega
  | some line =>
    rw [Option.isSome_some, if_pos rfl]
    omega

/-- The traversal ends and puts in marks only. -/
theorem visit_keeps {visit : Traversal} (hvisit : IsPreorder visit) (highlights : List ThreadHighlight) (s : State)
    (nodes : List Node) : ∃ s' nodes', visit (visitor highlights) s nodes = some (s', nodes') ∧ Keeps nodes nodes' := by
  match nodes with
  | [] => exact ⟨s, [], hvisit.nil _ s, .nil⟩
  | .text v :: rest =>
    obtain ⟨s', rest', hrest, hkeeps⟩ := visit_keeps hvisit highlights s rest
    exact ⟨s', .text v :: rest', by rw [hvisit.text, hrest, Option.map_some], .text (.single v) hkeeps⟩
  | .other v :: rest =>
    obtain ⟨s', rest', hrest, hkeeps⟩ := visit_keeps hvisit highlights s rest
    exact ⟨s', .other v :: rest', by rw [hvisit.other, hrest, Option.map_some], .other v hkeeps⟩
  | .element e children :: rest =>
    have hstep := visitor_keeps highlights s e children
    cases hresult : visitor highlights s e children with
    | skip s₁ n =>
      rw [hresult] at hstep
      obtain ⟨s', rest', hrest, hkeeps⟩ := visit_keeps hvisit highlights s₁ rest
      exact ⟨s', n :: rest', by rw [hvisit.skip hresult, hrest, Option.map_some], Marked.append hstep hkeeps⟩
    | next s₁ children₁ =>
      rw [hresult] at hstep
      have hlt := next_lt hresult rest
      obtain ⟨s₂, children₂, hbelow, hkeepsBelow⟩ := visit_keeps hvisit highlights s₁ children₁
      obtain ⟨s', rest', hrest, hkeeps⟩ := visit_keeps hvisit highlights s₂ rest
      refine ⟨s', .element e children₂ :: rest', ?_, ?_⟩
      · rw [hvisit.next hresult, hbelow, Option.bind_some, hrest, Option.map_some]
      · exact .element e.annotated_refl (hstep.1.trans hkeepsBelow) hkeeps
termination_by (linedIn nodes, sizeOfNodes nodes)
decreasing_by
  · exact rest_lt (.text v) rest
  · exact rest_lt (.other v) rest
  · exact rest_lt (.element e children) rest
  · exact hlt
  · exact rest_lt (.element e children) rest

/-- The transformer ends, it puts in marks only, which hold parts of text nodes or images, and it keeps the text; and the
marks of `applyHighlight` hold what was matched. -/
theorem highlighting_keeps_document {visit : Traversal} (hvisit : IsPreorder visit) :
    (∀ (highlights : List ThreadHighlight) (tree : List Node), ∃ tree',
      rehypeCommentHighlights visit highlights tree = some tree' ∧ Marked Node.holdsImages tree tree' ∧
        textOf tree' = textOf tree) ∧
    ∀ (children : List Node) (highlight : ThreadHighlight),
      (highlightMatch children highlight = none → (applyHighlight children highlight).children = children) ∧
      ∀ m, highlightMatch children highlight = some m →
        ∃ held, NewMarks highlight children (applyHighlight children highlight).children held ∧
          normalizeHast held.flatten = matchedStretch children m := by
  refine ⟨fun highlights tree => ?_, fun children highlight => ⟨fun hnone => ?_, fun m hm => applyHighlight_held hm⟩⟩
  · rw [rehypeCommentHighlights]
    split
    · exact ⟨tree, rfl, Marked.refl tree, rfl⟩
    · obtain ⟨s', tree', hrun, hkeeps⟩ := visit_keeps hvisit highlights ⟨[], []⟩ tree
      exact ⟨tree', by rw [hrun, Option.map_some], hkeeps, hkeeps.textOf_eq⟩
  · rw [applyHighlight, hnone]

/-- A traversal that calls itself below an element and behind it. -/
def State.visit (s : State) (f : State → Element → List Node → Step) : List Node → Option (State × List Node)
  | [] => some (s, [])
  | .text v :: rest => do
      let r ← s |>.visit f rest
      return (r.1, .text v :: r.2)
  | .other v :: rest => do
      let r ← s |>.visit f rest
      return (r.1, .other v :: r.2)
  | .element e children :: rest =>
    match f s e children with
    | .skip s' n => do
        let r ← s' |>.visit f rest
        return (r.1, n :: r.2)
    | .next s' children' => do
        let below ← s' |>.visit f children'
        let r ← below.1 |>.visit f rest
        return (r.1, .element e below.2 :: r.2)
partial_fixpoint

def visitNodes (f : State → Element → List Node → Step) (s : State) (nodes : List Node) : Option (State × List Node) :=
  s.visit f nodes

/-- The walk goes down before it goes on. -/
theorem visitNodes_isPreorder : IsPreorder visitNodes where
  nil f s := by rw [visitNodes, State.visit]
  text f s v rest := by rw [visitNodes, State.visit, Option.map_eq_bind]; rfl
  other f s v rest := by rw [visitNodes, State.visit, Option.map_eq_bind]; rfl
  skip hstep rest := by rw [visitNodes, State.visit, hstep, Option.map_eq_bind]; rfl
  next hstep rest := by
    rw [visitNodes, State.visit, hstep]
    simp only [Option.map_eq_bind]
    rfl

def plain (tagName : String) (line : Option ℕ) : Element := ⟨tagName, ⟨none, none, none, none⟩, line⟩

/-- A rule on the first line, and an image on the second one. -/
def ruleAndImage : List Node :=
  [.element (plain "hr" (some 1)) [], .element (plain "p" (some 2)) [.element (plain "img" (some 2)) []]]

/-- A selection that begins at the rule. -/
def ruleHighlight : ThreadHighlight := ⟨"t", [0x61, 0x62, 0x63], 1, none, none⟩

/-- A paragraph with the selected text behind another one. -/
def selectedParagraph : List Node := [.element (plain "p" (some 1)) [.text [0x78, 0x20, 0x61, 0x62, 0x63]]]

/-- The selected text gets a mark, and is still the same. -/
theorem highlighting_keeps_document_text :
    let tree' : List Node := [.element (plain "p" (some 1))
      [.text [0x78, 0x20], .element (markElement ruleHighlight) [.text [0x61, 0x62, 0x63]]]]
    rehypeCommentHighlights visitNodes [ruleHighlight] selectedParagraph = some tree' ∧
      Marked Node.holdsImages selectedParagraph tree' ∧ textOf tree' = textOf selectedParagraph := by
  intro tree'
  have hparagraph : visitor [ruleHighlight] ⟨[], []⟩ (plain "p" (some 1)) [.text [0x78, 0x20, 0x61, 0x62, 0x63]] =
    .next ⟨[], ["t"]⟩ [.text [0x78, 0x20], .element (markElement ruleHighlight) [.text [0x61, 0x62, 0x63]]] := rfl
  have hmark : visitor [ruleHighlight] ⟨[], ["t"]⟩ (markElement ruleHighlight) [.text [0x61, 0x62, 0x63]] =
    .next ⟨[], ["t"]⟩ [.text [0x61, 0x62, 0x63]] := rfl
  have htree : rehypeCommentHighlights visitNodes [ruleHighlight] selectedParagraph = some tree' := by
    rw [rehypeCommentHighlights, if_neg (by decide), selectedParagraph, visitNodes_isPreorder.next hparagraph,
      visitNodes_isPreorder.text, visitNodes_isPreorder.next hmark, visitNodes_isPreorder.text]
    simp only [visitNodes_isPreorder.nil, Option.map_some, Option.bind_some]
    rfl
  obtain ⟨marked, hrun, hmarked, htext⟩ :=
    (highlighting_keeps_document visitNodes_isPreorder).1 [ruleHighlight] selectedParagraph
  obtain rfl := Option.some.inj (hrun.symm.trans htree)
  exact ⟨htree, hmarked, htext⟩

/-- The paragraph is wrapped in a mark, which is in no text node. -/
theorem highlighting_wraps_image : ∃ tree',
    rehypeCommentHighlights visitNodes [ruleHighlight] ruleAndImage = some tree' ∧
      ¬ Marked (fun _ => false) ruleAndImage tree' := by
  let s : State := ⟨[⟨ruleHighlight, [0x61, 0x62, 0x63], false⟩], ["t"]⟩
  have hrule : visitor [ruleHighlight] ⟨[], []⟩ (plain "hr" (some 1)) [] = .next s [] := rfl
  have himage : visitor [ruleHighlight] s (plain "p" (some 2)) [.element (plain "img" (some 2)) []] =
    .skip s (.element (markElement ruleHighlight)
      [.element (plain "p" (some 2)) [.element (plain "img" (some 2)) []]]) := rfl
  have hrun : rehypeCommentHighlights visitNodes [ruleHighlight] ruleAndImage =
      some [.element (plain "hr" (some 1)) [], .element (markElement ruleHighlight)
        [.element (plain "p" (some 2)) [.element (plain "img" (some 2)) []]]] := by
    rw [rehypeCommentHighlights, if_neg (by decide), ruleAndImage, visitNodes_isPreorder.next hrule,
      visitNodes_isPreorder.nil, Option.bind_some, visitNodes_isPreorder.skip himage, visitNodes_isPreorder.nil]
    rfl
  refine ⟨_, hrun, ?_⟩
  intro hmarked
  cases hmarked with
  | element _ _ hrest =>
    cases hrest with
    | element he _ _ =>
      obtain ⟨mermaid, cross, hmark⟩ := he
      have htag : "mark" = "p" := congrArg Element.tagName hmark
      exact absurd htag (by decide)
    | wrap hn _ _ _ => cases hn
  | wrap hn _ _ _ => cases hn

end Builderbot.Penpal.Highlights

