import Builderbot.Penpal.MarkedTree
import Mathlib.Data.List.TakeWhile

/-!
# Documents up to marks

A document is marked when text nodes are cut into texts and marks that hold parts of them, and chosen nodes are wrapped in
a mark. This relation says what highlighting may do to a document; it composes when the chosen nodes are those that hold
images only.
-/

namespace Builderbot.Penpal.Highlights

open DiffViewer

/-- A mark element that was put in. -/
structure IsMark (e : Element) : Prop where
  tagName : e.tagName = "mark"
  line : e.line = none

/-- What one text node with the text has become. -/
inductive Pieces : JsString → List Node → Prop
  | nil : Pieces [] []
  | text (v : JsString) {w : JsString} {rest : List Node} (hrest : Pieces w rest) : Pieces (v ++ w) (.text v :: rest)
  | mark {e : Element} {v w : JsString} {inside rest : List Node} (hmark : IsMark e) (hne : v ≠ [])
      (hinside : Pieces v inside) (hrest : Pieces w rest) : Pieces (v ++ w) (.element e inside :: rest)

/-- The element with annotations for the renderer. -/
def Element.Annotated (e e' : Element) : Prop :=
  ∃ mermaid cross, e' = { e with properties :=
    { e.properties with dataMermaidHighlight := mermaid, dataCrossHighlights := cross } }

/-- The nodes have become others by marks in the text nodes and around the nodes that may be wrapped. -/
inductive Marked (wraps : Node → Bool) : List Node → List Node → Prop
  | nil : Marked wraps [] []
  | text {v : JsString} {pieces rest rest' : List Node} (hpieces : Pieces v pieces) (hrest : Marked wraps rest rest') :
      Marked wraps (.text v :: rest) (pieces ++ rest')
  | other (v : JsString) {rest rest' : List Node} (hrest : Marked wraps rest rest') :
      Marked wraps (.other v :: rest) (.other v :: rest')
  | element {e e' : Element} {children children' rest rest' : List Node} (he : e.Annotated e')
      (hchildren : Marked wraps children children') (hrest : Marked wraps rest rest') :
      Marked wraps (.element e children :: rest) (.element e' children' :: rest')
  | wrap {n : Node} {m : Element} {inside rest rest' : List Node} (hn : wraps n = true) (hmark : IsMark m)
      (hinside : Marked wraps [n] inside) (hrest : Marked wraps rest rest') :
      Marked wraps (n :: rest) (.element m inside :: rest')

variable {b a : List Node} {v : JsString}

theorem Pieces.append {w : JsString} (ha : Pieces v a) (hb : Pieces w b) : Pieces (v ++ w) (a ++ b) := by
  induction ha with
  | nil => exact hb
  | text v _ ih =>
    rw [List.append_assoc]
    exact .text v ih
  | mark hmark hne hinside _ _ ih =>
    rw [List.append_assoc]
    exact .mark hmark hne hinside ih

theorem Pieces.single (v : JsString) : Pieces v [.text v] := by
  have h := Pieces.text v .nil
  rwa [List.append_nil] at h

theorem Pieces.ifAny (v : JsString) : Pieces v (textIfAny v) := by
  rw [textIfAny]
  split
  case isTrue hnil => exact hnil ▸ .nil
  case isFalse => exact .single v

/-- The pieces together are the text. -/
theorem Pieces.textOf_eq {nodes : List Node} (h : Pieces v nodes) : textOf nodes = v := by
  induction h with
  | nil => rfl
  | text v _ ih => rw [textOf, Node.content, ih]
  | mark _ _ _ _ ihi ih => rw [textOf, Node.content, ihi, ih]

theorem Element.annotated_refl (e : Element) : e.Annotated e := ⟨_, _, rfl⟩

theorem Element.Annotated.trans {a b c : Element} (hab : a.Annotated b) (hbc : b.Annotated c) : a.Annotated c := by
  obtain ⟨_, _, rfl⟩ := hab
  obtain ⟨mermaid, cross, rfl⟩ := hbc
  exact ⟨mermaid, cross, rfl⟩

namespace Marked

variable {wraps : Node → Bool} {a b c : List Node}

theorem refl (nodes : List Node) : Marked wraps nodes nodes := by
  induction nodes using Node.forest_induction with
  | nil => exact .nil
  | text v rest ih => exact .text (.single v) ih
  | other v rest ih => exact .other v ih
  | element e children rest ihc ih => exact .element e.annotated_refl ihc ih

theorem append {a' b' : List Node} (ha : Marked wraps a a') (hb : Marked wraps b b') :
    Marked wraps (a ++ b) (a' ++ b') := by
  induction ha with
  | nil => exact hb
  | text hpieces _ ih =>
    rw [List.append_assoc]
    exact .text hpieces ih
  | other v _ ih => exact .other v ih
  | element he hchildren _ _ ih => exact .element he hchildren ih
  | wrap hn hmark hinside _ _ ih => exact .wrap hn hmark hinside ih

/-- What two parts have become. -/
theorem of_append (h : Marked wraps (a ++ b) c) : ∃ a' b', c = a' ++ b' ∧ Marked wraps a a' ∧ Marked wraps b b' := by
  induction a generalizing c with
  | nil => exact ⟨[], c, rfl, .nil, h⟩
  | cons n rest ih =>
    cases h with
    | text hpieces hrest =>
      obtain ⟨a', b', rfl, ha, hb⟩ := ih hrest
      exact ⟨_ ++ a', b', (List.append_assoc _ _ _).symm, .text hpieces ha, hb⟩
    | other v hrest =>
      obtain ⟨a', b', rfl, ha, hb⟩ := ih hrest
      exact ⟨_ :: a', b', rfl, .other v ha, hb⟩
    | element he hchildren hrest =>
      obtain ⟨a', b', rfl, ha, hb⟩ := ih hrest
      exact ⟨_ :: a', b', rfl, .element he hchildren ha, hb⟩
    | wrap hn hmark hinside hrest =>
      obtain ⟨a', b', rfl, ha, hb⟩ := ih hrest
      exact ⟨_ :: a', b', rfl, .wrap hn hmark hinside ha, hb⟩

/-- The text is kept. -/
theorem textOf_eq (h : Marked wraps a b) : textOf b = textOf a := by
  induction h with
  | nil => rfl
  | text hpieces _ ih => rw [textOf_append, hpieces.textOf_eq, ih, textOf, Node.content]
  | other v _ ih => rw [textOf, textOf, ih]
  | element _ _ _ ihc ih => rw [textOf, textOf, Node.content, Node.content, ihc, ih]
  | @wrap n m inside rest rest' _ _ _ _ ihi ih =>
    have hinside : textOf inside = n.content := ihi.trans (List.append_nil _)
    rw [textOf, textOf, Node.content, hinside, ih]

end Marked

/-- New marks in text nodes. -/
theorem NewMarks.marked {highlight : ThreadHighlight} {held : List JsString}
    (h : NewMarks highlight a b held) (wraps : Node → Bool) : Marked wraps a b := by
  induction h with
  | nil => exact .nil
  | keep _ ih => exact (Marked.refl [_]).append ih
  | @cut before slice after rest rest' held hne _ ih =>
    have hpieces := (Pieces.ifAny before).append
      (.mark (e := markElement highlight) ⟨rfl, rfl⟩ hne (.single slice) (.ifAny after))
    have hmarked := Marked.text hpieces ih
    rwa [List.append_assoc] at hmarked
  | element _ _ ihc ih => exact .element (Element.annotated_refl _) ihc ih

/-! ## Nodes that hold images -/

/-- A text of white space. -/
def isBlank (v : JsString) : Bool := (trim v).isEmpty

def Node.isImage : Node → Bool
  | .element e _ => e.tagName == "img"
  | _ => false

/-- An image, or white space beside images. -/
def Node.isMedia : Node → Bool
  | .text v => isBlank v
  | n => n.isImage

/-- `isMediaOnlyBlock`, by the children of the element. -/
def isMediaOnlyBlock (children : List Node) : Bool := children.all Node.isMedia && children.any Node.isImage

/-- An image, or an element with nothing but images. -/
def Node.holdsImages : Node → Bool
  | .element e children => e.tagName == "img" || isMediaOnlyBlock children
  | _ => false

/-- What is dropped at both ends leaves nothing when it is everywhere. -/
theorem dropWhile_reverse_eq_nil_iff {α : Type*} (p : α → Bool) (l : List α) :
    (l.dropWhile p).reverse.dropWhile p = [] ↔ ∀ x ∈ l, p x = true := by
  rw [List.dropWhile_eq_nil_iff]
  constructor
  · intro hrest
    rw [← List.dropWhile_eq_nil_iff]
    by_contra hne
    have hpos : 0 < (l.dropWhile p).length := List.length_pos_iff.mpr hne
    exact List.dropWhile_get_zero_not p l hpos (hrest _ (List.mem_reverse.mpr (List.get_mem _ _)))
  · intro hall x hx
    exact hall x (List.dropWhile_subset p (List.mem_reverse.mp hx))

theorem isBlank_iff (v : JsString) : isBlank v = true ↔ ∀ u ∈ v, isSpace u.toNat = true := by
  rw [isBlank, List.isEmpty_iff, trim, List.reverse_eq_nil_iff, dropWhile_reverse_eq_nil_iff]

/-- Two texts are blank together exactly if each is. -/
theorem isBlank_append (v w : JsString) : isBlank (v ++ w) = (isBlank v && isBlank w) := by
  rw [Bool.eq_iff_iff, Bool.and_eq_true, isBlank_iff, isBlank_iff, isBlank_iff, List.forall_mem_append]

theorem IsMark.not_image {m : Element} (hmark : IsMark m) (inside : List Node) : (Node.element m inside).isImage = false := by
  rw [Node.isImage, hmark.tagName]
  rfl

theorem IsMark.not_media {m : Element} (hmark : IsMark m) (inside : List Node) : (Node.element m inside).isMedia = false :=
  hmark.not_image inside

variable {e : Element}

theorem Element.Annotated.isImage_eq {e' : Element} (h : e.Annotated e') (children children' : List Node) :
    (Node.element e' children').isImage = (Node.element e children).isImage := by
  obtain ⟨_, _, rfl⟩ := h
  rfl

variable {pieces : List Node}

/-- No image comes from a text node. -/
theorem Pieces.no_image (h : Pieces v pieces) : pieces.any Node.isImage = false := by
  induction h with
  | nil => rfl
  | text v _ ih => rw [List.any_cons, ih]; rfl
  | mark hmark _ _ _ _ ih => rw [List.any_cons, ih, hmark.not_image]; rfl

/-- A text of which only media are left was blank. -/
theorem Pieces.isBlank_of_media (h : Pieces v pieces)
    (hmedia : pieces.all Node.isMedia = true) : isBlank v = true := by
  induction h with
  | nil => rfl
  | text v _ ih =>
    rw [List.all_cons, Bool.and_eq_true] at hmedia
    rw [isBlank_append, ih hmedia.2, Bool.and_true]
    exact hmedia.1
  | mark hmark _ _ _ _ _ => rw [List.all_cons, hmark.not_media] at hmedia; cases hmedia

variable {wraps : Node → Bool}

/-- What holds only images after marks were put in, held only images before. -/
theorem Marked.media_of (h : Marked wraps a b) (hmedia : b.all Node.isMedia = true) :
    a.all Node.isMedia = true ∧ a.any Node.isImage = b.any Node.isImage := by
  induction h with
  | nil => exact ⟨rfl, rfl⟩
  | text hpieces _ ih =>
    rw [List.all_append, Bool.and_eq_true] at hmedia
    obtain ⟨hall, hany⟩ := ih hmedia.2
    rw [List.all_cons, hall, Bool.and_true, List.any_cons, List.any_append, hany, hpieces.no_image]
    exact ⟨hpieces.isBlank_of_media hmedia.1, rfl⟩
  | other v _ ih => rw [List.all_cons] at hmedia; cases hmedia
  | @element e e' children children' rest rest' he _ _ _ ih =>
    have hsame := he.isImage_eq children children'
    rw [List.all_cons, Bool.and_eq_true] at hmedia
    obtain ⟨hall, hany⟩ := ih hmedia.2
    rw [List.all_cons, hall, Bool.and_true, List.any_cons, List.any_cons, hany, hsame]
    exact ⟨hsame.symm.trans hmedia.1, rfl⟩
  | wrap _ hmark _ _ _ _ => rw [List.all_cons, hmark.not_media] at hmedia; cases hmedia

theorem Marked.holdsImages_of {e' : Element} {children children' : List Node}
    (he : e.Annotated e') (h : Marked wraps children children')
    (hholds : (Node.element e' children').holdsImages = true) : (Node.element e children).holdsImages = true := by
  rw [Node.holdsImages, Bool.or_eq_true] at hholds ⊢
  rcases hholds with himage | hmedia
  · exact .inl ((he.isImage_eq children children').symm.trans himage)
  · rw [isMediaOnlyBlock, Bool.and_eq_true] at hmedia ⊢
    obtain ⟨hall, hany⟩ := h.media_of hmedia.1
    exact .inr ⟨hall, hany.trans hmedia.2⟩

theorem Element.Annotated.isMark {e' : Element} (h : e.Annotated e') (hmark : IsMark e) : IsMark e' := by
  obtain ⟨_, _, rfl⟩ := h
  exact ⟨hmark.tagName, hmark.line⟩

/-- The pieces of a text node stay its pieces. -/
theorem Pieces.of_marked (ha : Pieces v a) (h : Marked Node.holdsImages a b) : Pieces v b := by
  induction ha generalizing b with
  | nil =>
    cases h
    exact .nil
  | text v _ ih =>
    cases h with
    | text hpieces hrest => exact hpieces.append (ih hrest)
    | wrap hn _ _ _ => cases hn
  | mark hmark hne hinside _ ihi ih =>
    cases h with
    | element he hchildren hrest => exact .mark (he.isMark hmark) hne (ihi hchildren) (ih hrest)
    | wrap hn _ _ _ =>
      rw [Node.holdsImages, isMediaOnlyBlock, hinside.no_image, Bool.and_false, Bool.or_false] at hn
      exact absurd (hn.symm.trans (hmark.not_image [])) Bool.noConfusion

/-- Marks that are put in after an element has taken the place of a node. -/
theorem Marked.through_element {n : Node} {children : List Node}
    (hwraps : (Node.element e children).holdsImages = true → n.holdsImages = true)
    (helement : ∀ e' children' rest rest', e.Annotated e' → Marked Node.holdsImages children children' →
      Marked Node.holdsImages rest rest' → Marked Node.holdsImages (n :: rest) (.element e' children' :: rest'))
    {c : List Node} (h : Marked Node.holdsImages b c) {rest rest' : List Node} (hb : b = .element e children :: rest')
    (hrest : ∀ c, Marked Node.holdsImages rest' c → Marked Node.holdsImages rest c) :
    Marked Node.holdsImages (n :: rest) c := by
  induction h generalizing rest rest' with
  | nil => cases hb
  | text _ _ _ => cases hb
  | other _ _ _ => cases hb
  | element he hchildren htail _ _ =>
    cases hb
    exact helement _ _ _ _ he hchildren (hrest _ htail)
  | wrap hn hmark _ htail ihi _ =>
    cases hb
    exact .wrap (hwraps hn) hmark (ihi rfl fun c hc => hc) (hrest _ htail)

/-- Marking twice is marking, also where the second mark cuts the first. -/
theorem Marked.trans {c : List Node} (hab : Marked Node.holdsImages a b) (hbc : Marked Node.holdsImages b c) :
    Marked Node.holdsImages a c := by
  induction hab generalizing c with
  | nil => exact hbc
  | text hpieces _ ih =>
    obtain ⟨pieces', rest', rfl, hpieces', hrest'⟩ := hbc.of_append
    exact .text (hpieces.of_marked hpieces') (ih hrest')
  | other v _ ih =>
    cases hbc with
    | other _ hrest => exact .other v (ih hrest)
    | wrap hn _ _ _ => cases hn
  | element he hchildren _ ihc ih =>
    refine Marked.through_element (holdsImages_of he hchildren) ?_ hbc rfl fun c hc => ih hc
    intro e' children' rest rest' he' hchildren' hrest'
    exact .element (he.trans he') (ihc hchildren') hrest'
  | wrap hn hmark _ _ ihi ih =>
    refine Marked.through_element (fun _ => hn) ?_ hbc rfl fun c hc => ih hc
    intro e' children' rest rest' he' hchildren' hrest'
    exact .wrap hn (he'.isMark hmark) (ihi hchildren') hrest'

/-! ## Elements of the source -/

/-- `node.position?.start?.line`, when it is truthy. -/
def Element.sourceLine (e : Element) : Option ℕ := e.line.filter (· ≠ 0)

mutual

/-- The elements with a line at a node and below it. -/
def Node.lined : Node → ℕ
  | .text _ => 0
  | .other _ => 0
  | .element e children => (if e.sourceLine.isSome then 1 else 0) + linedIn children

/-- The elements with a line among the nodes and below them. -/
def linedIn : List Node → ℕ
  | [] => 0
  | n :: rest => n.lined + linedIn rest

end

theorem linedIn_append (a b : List Node) : linedIn (a ++ b) = linedIn a + linedIn b := by
  induction a with
  | nil => rw [List.nil_append, linedIn, Nat.zero_add]
  | cons n rest ih => rw [List.cons_append, linedIn, linedIn, ih, Nat.add_assoc]

theorem IsMark.lined {m : Element} (hmark : IsMark m) (inside : List Node) :
    (Node.element m inside).lined = linedIn inside := by
  rw [Node.lined, Element.sourceLine, hmark.line]
  exact Nat.zero_add _

/-- No piece of a text has a line of its own. -/
theorem Pieces.lined_eq (h : Pieces v pieces) : linedIn pieces = 0 := by
  induction h with
  | nil => rfl
  | text v _ ih => rw [linedIn, ih]; rfl
  | mark hmark _ _ _ ihi ih => rw [linedIn, hmark.lined, ihi, ih]

/-- Marks have no line. -/
theorem Marked.lined_eq (h : Marked wraps a b) : linedIn b = linedIn a := by
  induction h with
  | nil => rfl
  | text hpieces _ ih => rw [linedIn_append, hpieces.lined_eq, ih, linedIn, Node.lined]
  | other v _ ih => rw [linedIn, linedIn, ih, Node.lined]
  | element he _ _ ihc ih =>
    obtain ⟨_, _, rfl⟩ := he
    rw [linedIn, linedIn, Node.lined, Node.lined, ihc, ih]
    rfl
  | wrap _ hmark _ _ ihi ih => rw [linedIn, hmark.lined, ihi, ih, linedIn, linedIn, Nat.add_zero, linedIn]

end Builderbot.Penpal.Highlights
