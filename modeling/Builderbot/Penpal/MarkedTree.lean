import Builderbot.Penpal.HighlightText

/-!
# Marks in a tree

A hast tree and the marks that `insertMarks` of `rehypeCommentHighlights.ts` puts into it. The text nodes of an element are
collected with a reference to the parent and the index among its children, and are cut from the last one to the first one
by splices in the lists of children. A reference to a parent is the path to it from the element: what is spliced stands
behind the nodes that are left, so that their paths and indices stay.

`insertMarks_eq` says that the loop marks every text node where it is. `NewMarks` lists what the marks hold, in the order
of the document.
-/

namespace Builderbot.Penpal.Highlights

open DiffViewer

structure ThreadHighlight where
  threadId : String
  selectedText : JsString
  startLine : ℤ
  occurrenceIndex : Option ℤ
  pending : Option Bool
deriving DecidableEq, Repr

/-- The thread whose continuation crosses a diagram. -/
structure MermaidHighlight where
  threadId : String
  pending : Option Bool
deriving DecidableEq, Repr

/-- The part of a code block that a thread covers. -/
structure CrossHighlight where
  threadId : String
  selectedText : JsString
  pending : Option Bool
deriving DecidableEq, Repr

/-- The properties that are read or written. The last two hold JSON texts, of the values given here. -/
structure Properties where
  className : Option (List String)
  dataThreadId : Option String
  dataMermaidHighlight : Option MermaidHighlight
  dataCrossHighlights : Option (List CrossHighlight)
deriving DecidableEq, Repr

/-- An element without its children; the line is `position?.start?.line`. -/
structure Element where
  tagName : String
  properties : Properties
  line : Option ℕ
deriving DecidableEq, Repr

/-- A node of a tree; comments and raw nodes are passed over. -/
inductive Node where
  | text (value : JsString)
  | other (value : JsString)
  | element (e : Element) (children : List Node)

/-- Induction over the nodes of a list and below them. -/
theorem Node.forest_induction {P : List Node → Prop} (nil : P []) (text : ∀ v rest, P rest → P (.text v :: rest))
    (other : ∀ v rest, P rest → P (.other v :: rest))
    (element : ∀ e children rest, P children → P rest → P (.element e children :: rest)) (nodes : List Node) :
    P nodes :=
  Node.rec_1 (motive_1 := fun n => ∀ rest, P rest → P (n :: rest)) (motive_2 := P) text other
    (fun e children hchildren rest => element e children rest hchildren) nil (fun _ _ hn hrest => hn _ hrest) nodes

mutual

/-- The text below a node. -/
def Node.content : Node → JsString
  | .text v => v
  | .other _ => []
  | .element _ children => textOf children

/-- The concatenated text of the nodes. -/
def textOf : List Node → JsString
  | [] => []
  | n :: rest => n.content ++ textOf rest

end

theorem textOf_append (a b : List Node) : textOf (a ++ b) = textOf a ++ textOf b := by
  induction a with
  | nil => rfl
  | cons n rest ih => rw [List.cons_append, textOf, textOf, ih, List.append_assoc]

/-! ## Collecting the text nodes -/

/-- A text node, where it is, and where its text begins in the text of the element. -/
structure TextEntry where
  value : JsString
  parent : List ℕ
  index : ℕ
  start : ℕ
deriving DecidableEq, Repr

namespace TextEntry

/-- The entry, seen from the parent of the element. -/
def under (i : ℕ) (entry : TextEntry) : TextEntry := { entry with parent := i :: entry.parent }

/-- The index of the child of the element below which the text node is. -/
def slot (entry : TextEntry) : ℕ := entry.parent.headD entry.index

end TextEntry

mutual

/-- The text nodes of the child with an index, behind a length of text. -/
def Node.textNodes (index start : ℕ) : Node → List TextEntry
  | .text v => [⟨v, [], index, start⟩]
  | .other _ => []
  | .element _ children => (textNodesFrom 0 start children).map (TextEntry.under index)

/-- The text nodes of the children from an index on. -/
def textNodesFrom (index start : ℕ) : List Node → List TextEntry
  | [] => []
  | n :: rest => n.textNodes index start ++ textNodesFrom (index + 1) (start + n.content.length) rest

end

/-- The entries of `collectTextNodes`; the text that comes with them is `textOf`. -/
def collectTextNodes (children : List Node) : List TextEntry := textNodesFrom 0 0 children

theorem slot_textNodes {index start : ℕ} {n : Node} {entry : TextEntry} (h : entry ∈ n.textNodes index start) :
    entry.slot = index := by
  cases n with
  | text v =>
    obtain rfl := List.mem_singleton.mp h
    rfl
  | other v => cases h
  | element e children =>
    obtain ⟨inner, -, rfl⟩ := List.mem_map.mp h
    rfl

theorem le_slot {index start : ℕ} {nodes : List Node} {entry : TextEntry} (h : entry ∈ textNodesFrom index start nodes) :
    index ≤ entry.slot := by
  induction nodes generalizing index start with
  | nil => cases h
  | cons n rest ih =>
    rcases List.mem_append.mp h with h | h
    · exact (slot_textNodes h).ge
    · exact Nat.le_of_succ_le (ih h)

/-- In the order of the document: the entries of one parent have ascending indices. -/
def Ordered (entries : List TextEntry) : Prop := entries.Pairwise fun a b => a.parent = b.parent → a.index < b.index

theorem ordered_cons {index start : ℕ} {n : Node} {rest : List Node} (hn : Ordered (n.textNodes index start))
    (hrest : Ordered (textNodesFrom (index + 1) (start + n.content.length) rest)) :
    Ordered (textNodesFrom index start (n :: rest)) := by
  refine List.pairwise_append.mpr ⟨hn, hrest, ?_⟩
  intro a ha b hb hparent
  have hlt : a.slot < b.slot := (slot_textNodes ha).trans_lt (le_slot hb)
  rw [TextEntry.slot, TextEntry.slot, hparent] at hlt
  cases hpath : b.parent with
  | nil => rwa [hpath] at hlt
  | cons i path =>
    rw [hpath] at hlt
    exact absurd hlt (Nat.lt_irrefl i)

theorem ordered_textNodesFrom (nodes : List Node) (index start : ℕ) : Ordered (textNodesFrom index start nodes) := by
  induction nodes using Node.forest_induction generalizing index start with
  | nil => exact .nil
  | text v rest ih => exact ordered_cons (List.pairwise_singleton _ _) (ih _ _)
  | other v rest ih => exact ordered_cons .nil (ih _ _)
  | element e children rest ihc ih =>
    refine ordered_cons (List.pairwise_map.mpr ((ihc 0 start).imp ?_)) (ih _ _)
    intro a b hab hparent
    exact hab (List.tail_eq_of_cons_eq hparent)

/-! ## The loop -/

section Insert

variable (highlight : ThreadHighlight) (origMatchStart origMatchEnd : ℕ)

def markClasses (pending : Bool) : List String :=
  if pending then ["comment-highlight", "pending-highlight"] else ["comment-highlight"]

/-- The mark element of a highlight. -/
def markElement : Element :=
  ⟨"mark", ⟨some (markClasses (highlight.pending == some true)), some highlight.threadId, none, none⟩, none⟩

/-- `newNodes`, for the part of a text node that is marked. -/
def newNodes (nodeValue : JsString) (overlapStart overlapEnd : ℕ) : List Node :=
  (if 0 < overlapStart then [.text (nodeValue.take overlapStart)] else []) ++
    .element (markElement highlight) [.text ((nodeValue.take overlapEnd).drop overlapStart)] ::
      (if overlapEnd < nodeValue.length then [.text (nodeValue.drop overlapEnd)] else [])

/-- `children.splice(index, 1, ...nodes)`. -/
def splice (index : ℕ) (nodes children : List Node) : List Node :=
  children.take index ++ (nodes ++ children.drop (index + 1))

/-- A change of the children of the node at a path. -/
def updateAt (f : List Node → List Node) : List ℕ → List Node → List Node
  | [], children => f children
  | i :: path, children => children.modify i fun
      | .element e inner => .element e (updateAt f path inner)
      | n => n

/-- The entries before one whose text node is replaced by `inserted` more nodes. -/
def shiftIndices (entry : TextEntry) (inserted : ℕ) (earlier : List TextEntry) : List TextEntry :=
  earlier.map fun n =>
    if n.parent = entry.parent ∧ entry.index < n.index then { n with index := n.index + inserted } else n

/-- The loop of `insertMarks` over the entries before an index. -/
def insertMarksFrom : ℕ → List TextEntry → List Node → List Node
  | 0, _, children => children
  | i + 1, nodes, children =>
    match nodes[i]? with
    | none => children
    | some entry =>
      let overlapStart := origMatchStart - entry.start
      let overlapEnd := min (origMatchEnd - entry.start) entry.value.length
      if overlapEnd ≤ overlapStart then insertMarksFrom i (nodes.take i) children
      else
        let cut := newNodes highlight entry.value overlapStart overlapEnd
        insertMarksFrom i (shiftIndices entry (cut.length - 1) (nodes.take i))
          (updateAt (splice entry.index cut) entry.parent children)

def insertMarks (nodes : List TextEntry) (children : List Node) : List Node :=
  insertMarksFrom highlight origMatchStart origMatchEnd nodes.length nodes children

/-- What a text node becomes whose text begins at `start`. -/
def cutText (start : ℕ) (v : JsString) : List Node :=
  let overlapStart := origMatchStart - start
  let overlapEnd := min (origMatchEnd - start) v.length
  if overlapEnd ≤ overlapStart then [.text v] else newNodes highlight v overlapStart overlapEnd

mutual

/-- What a node becomes whose text begins at `start`. -/
def Node.marked (start : ℕ) : Node → List Node
  | .text v => cutText highlight origMatchStart origMatchEnd start v
  | .other v => [.other v]
  | .element e children => [.element e (markedFrom start children)]

/-- What the nodes become whose text begins at `start`. -/
def markedFrom (start : ℕ) : List Node → List Node
  | [] => []
  | n :: rest => n.marked start ++ markedFrom (start + n.content.length) rest

end

/-- The round of the loop for one entry. -/
def insertMark (entry : TextEntry) (children : List Node) : List Node :=
  let overlapStart := origMatchStart - entry.start
  let overlapEnd := min (origMatchEnd - entry.start) entry.value.length
  if overlapEnd ≤ overlapStart then children
  else updateAt (splice entry.index (newNodes highlight entry.value overlapStart overlapEnd)) entry.parent children

end Insert

variable {highlight : ThreadHighlight} {origMatchStart origMatchEnd : ℕ}

theorem splice_append (pre : List Node) (n : Node) (nodes rest : List Node) :
    splice pre.length nodes (pre ++ n :: rest) = pre ++ (nodes ++ rest) := by
  rw [splice, List.take_left, List.append_cons, List.drop_left' (by simp)]

theorem modify_append (pre : List Node) (n : Node) (rest : List Node) (f : Node → Node) :
    (pre ++ n :: rest).modify pre.length f = pre ++ f n :: rest := by
  induction pre with
  | nil => rfl
  | cons a pre ih => rw [List.cons_append, List.length_cons, List.modify_succ_cons, ih, List.cons_append]

theorem shiftIndices_eq {entry : TextEntry} {earlier : List TextEntry} (inserted : ℕ)
    (h : ∀ n ∈ earlier, n.parent = entry.parent → n.index < entry.index) :
    shiftIndices entry inserted earlier = earlier := by
  rw [shiftIndices, List.map_congr_left (g := id), List.map_id]
  intro n hn
  rw [if_neg, id]
  rintro ⟨hparent, hlt⟩
  exact Nat.lt_asymm hlt (h n hn hparent)

/-- The indices of the entries that are left need no change. -/
theorem insertMarksFrom_eq {entries : List TextEntry} (hordered : Ordered entries) (children : List Node) :
    insertMarksFrom highlight origMatchStart origMatchEnd entries.length entries children =
      entries.foldr (insertMark highlight origMatchStart origMatchEnd) children := by
  induction entries using List.reverseRecOn generalizing children with
  | nil => rfl
  | append_singleton earlier entry ih =>
    obtain ⟨hearlier, -, hbefore⟩ := List.pairwise_append.mp hordered
    have hshift : ∀ inserted, shiftIndices entry inserted earlier = earlier := fun inserted =>
      shiftIndices_eq inserted fun n hn => hbefore n hn entry (List.mem_singleton_self entry)
    have hlast : (earlier ++ [entry])[earlier.length]? = some entry := List.getElem?_concat_length
    rw [List.length_append, List.length_singleton, insertMarksFrom, hlast, List.take_left, List.foldr_append,
      List.foldr_cons, List.foldr_nil, ← ih hearlier, insertMark]
    simp only [hshift]
    split <;> rfl

/-- The changes below a child. -/
theorem foldr_under (entries : List TextEntry) (pre : List Node) (e : Element) (inner rest : List Node) :
    (entries.map (TextEntry.under pre.length)).foldr (insertMark highlight origMatchStart origMatchEnd)
        (pre ++ .element e inner :: rest) =
      pre ++ .element e (entries.foldr (insertMark highlight origMatchStart origMatchEnd) inner) :: rest := by
  induction entries with
  | nil => rfl
  | cons entry entries ih =>
    rw [List.map_cons, List.foldr_cons, ih, List.foldr_cons, insertMark, insertMark]
    by_cases hnone : min (origMatchEnd - entry.start) entry.value.length ≤ origMatchStart - entry.start
    · exact (if_pos hnone).trans (congrArg (fun n => pre ++ Node.element e n :: rest) (if_pos hnone).symm)
    · refine (if_neg hnone).trans (.trans ?_ (congrArg (fun n => pre ++ Node.element e n :: rest) (if_neg hnone).symm))
      exact modify_append pre _ rest _

/-- The nodes behind a node are changed before it. -/
theorem foldr_insertMark_cons {rest : List Node}
    (ih : ∀ (pre : List Node) (start : ℕ),
      (textNodesFrom pre.length start rest).foldr (insertMark highlight origMatchStart origMatchEnd) (pre ++ rest) =
        pre ++ markedFrom highlight origMatchStart origMatchEnd start rest)
    (n : Node) (pre : List Node) (start : ℕ) :
    (textNodesFrom pre.length start (n :: rest)).foldr (insertMark highlight origMatchStart origMatchEnd)
        (pre ++ n :: rest) =
      (n.textNodes pre.length start).foldr (insertMark highlight origMatchStart origMatchEnd)
        (pre ++ n :: markedFrom highlight origMatchStart origMatchEnd (start + n.content.length) rest) := by
  have htail := ih (pre ++ [n]) (start + n.content.length)
  rw [List.length_append, List.length_singleton, List.append_assoc, List.append_assoc] at htail
  rw [textNodesFrom, List.foldr_append]
  exact congrArg (fun nodes => (n.textNodes pre.length start).foldr
    (insertMark highlight origMatchStart origMatchEnd) nodes) htail

theorem foldr_insertMark (nodes : List Node) (pre : List Node) (start : ℕ) :
    (textNodesFrom pre.length start nodes).foldr (insertMark highlight origMatchStart origMatchEnd) (pre ++ nodes) =
      pre ++ markedFrom highlight origMatchStart origMatchEnd start nodes := by
  induction nodes using Node.forest_induction generalizing pre start with
  | nil => rfl
  | text v rest ih =>
    rw [foldr_insertMark_cons ih, Node.textNodes, List.foldr_cons, List.foldr_nil, insertMark, markedFrom, Node.marked, cutText]
    by_cases hnone : min (origMatchEnd - start) v.length ≤ origMatchStart - start
    · rw [if_pos hnone, if_pos hnone, List.singleton_append]
    · rw [if_neg hnone, if_neg hnone, updateAt, splice_append]
  | other v rest ih =>
    rw [foldr_insertMark_cons ih]
    rfl
  | element e children rest ihc ih =>
    have hinner := ihc [] start
    rw [List.nil_append, List.nil_append, List.length_nil] at hinner
    rw [foldr_insertMark_cons ih, Node.textNodes, foldr_under, hinner, markedFrom, Node.marked, List.singleton_append]

/-- The loop marks every text node where it is. -/
theorem insertMarks_eq (children : List Node) :
    insertMarks highlight origMatchStart origMatchEnd (collectTextNodes children) children =
      markedFrom highlight origMatchStart origMatchEnd 0 children := by
  rw [insertMarks, collectTextNodes, insertMarksFrom_eq (ordered_textNodesFrom children 0 0)]
  exact foldr_insertMark children [] 0

/-! ## What the marks hold -/

/-- A text node with these characters, if there are any. -/
def textIfAny (v : JsString) : List Node := if v = [] then [] else [.text v]

/-- Marks of a highlight are put into text nodes, and hold these texts in the order of the document. -/
inductive NewMarks (highlight : ThreadHighlight) : List Node → List Node → List JsString → Prop
  | nil : NewMarks highlight [] [] []
  | keep {n : Node} {rest rest' : List Node} {held : List JsString} (hrest : NewMarks highlight rest rest' held) :
      NewMarks highlight (n :: rest) (n :: rest') held
  | cut {before slice after : JsString} {rest rest' : List Node} {held : List JsString} (hslice : slice ≠ [])
      (hrest : NewMarks highlight rest rest' held) :
      NewMarks highlight (.text (before ++ (slice ++ after)) :: rest)
        (textIfAny before ++ .element (markElement highlight) [.text slice] :: (textIfAny after ++ rest')) (slice :: held)
  | element {e : Element} {children children' rest rest' : List Node} {inner held : List JsString}
      (hchildren : NewMarks highlight children children' inner) (hrest : NewMarks highlight rest rest' held) :
      NewMarks highlight (.element e children :: rest) (.element e children' :: rest') (inner ++ held)

/-- The part of a text that begins at `start` which lies in a range. -/
def window (origMatchStart origMatchEnd start : ℕ) (v : JsString) : JsString :=
  (v.take (origMatchEnd - start)).drop (origMatchStart - start)

theorem window_append (start : ℕ) (a b : JsString) :
    window origMatchStart origMatchEnd start (a ++ b) =
      window origMatchStart origMatchEnd start a ++ window origMatchStart origMatchEnd (start + a.length) b := by
  rw [window, window, window, List.take_append, List.drop_append, List.length_take]
  rcases Nat.le_total (origMatchEnd - start) a.length with hle | hle
  · have hend : origMatchEnd - start - a.length = 0 := Nat.sub_eq_zero_of_le hle
    have hend' : origMatchEnd - (start + a.length) = 0 := by omega
    rw [hend, hend', List.take_zero, List.drop_nil, List.drop_nil]
  · rw [Nat.min_eq_right hle, Nat.sub_sub, Nat.sub_sub]

theorem newNodes_eq (v : JsString) {overlapStart overlapEnd : ℕ} (hlt : overlapStart < overlapEnd)
    (hle : overlapEnd ≤ v.length) :
    newNodes highlight v overlapStart overlapEnd = textIfAny (v.take overlapStart) ++
      .element (markElement highlight) [.text ((v.take overlapEnd).drop overlapStart)] ::
        textIfAny (v.drop overlapEnd) := by
  have hbefore : (if 0 < overlapStart then [Node.text (v.take overlapStart)] else []) = textIfAny (v.take overlapStart) := by
    rw [textIfAny]
    rcases Nat.eq_zero_or_pos overlapStart with rfl | hpos
    · rfl
    · rw [if_pos hpos, if_neg]
      intro hnil
      have hlen := congrArg List.length hnil
      rw [List.length_take, List.length_nil] at hlen
      omega
  have hafter : (if overlapEnd < v.length then [Node.text (v.drop overlapEnd)] else []) = textIfAny (v.drop overlapEnd) := by
    rw [textIfAny]
    split
    case isTrue hlt => rw [if_neg (by simpa using hlt)]
    case isFalse hge => rw [if_pos (List.drop_eq_nil_of_le (Nat.le_of_not_lt hge))]
  rw [newNodes, hbefore, hafter]

/-- A text node is cut where the range begins and ends. -/
theorem cutText_cases (start : ℕ) (v : JsString) :
    (window origMatchStart origMatchEnd start v = [] ∧
      cutText highlight origMatchStart origMatchEnd start v = [.text v]) ∨
    ∃ before slice after, slice ≠ [] ∧ window origMatchStart origMatchEnd start v = slice ∧
      v = before ++ (slice ++ after) ∧ cutText highlight origMatchStart origMatchEnd start v =
        textIfAny before ++ .element (markElement highlight) [.text slice] :: textIfAny after := by
  have hend : v.take (min (origMatchEnd - start) v.length) = v.take (origMatchEnd - start) := by
    rw [← List.take_take, List.take_length]
  have hempty : window origMatchStart origMatchEnd start v = [] ↔
      min (origMatchEnd - start) v.length ≤ origMatchStart - start := by
    rw [window, List.drop_eq_nil_iff, List.length_take]
  by_cases hnone : min (origMatchEnd - start) v.length ≤ origMatchStart - start
  · exact .inl ⟨hempty.mpr hnone, if_pos hnone⟩
  · have hlt := Nat.lt_of_not_le hnone
    refine .inr ⟨v.take (origMatchStart - start), window origMatchStart origMatchEnd start v,
      v.drop (min (origMatchEnd - start) v.length), mt hempty.mp hnone, rfl, ?_, ?_⟩
    · have hfront : v.take (origMatchStart - start) ++ window origMatchStart origMatchEnd start v =
          v.take (min (origMatchEnd - start) v.length) := by
        rw [window, ← hend]
        conv_rhs => rw [← List.take_append_drop (origMatchStart - start) (v.take (min (origMatchEnd - start) v.length)),
          List.take_take, Nat.min_eq_left hlt.le]
      rw [← List.append_assoc, hfront, List.take_append_drop]
    · exact (if_neg hnone).trans (by rw [newNodes_eq v hlt (Nat.min_le_right _ _), hend, window])

/-- What is marked is the range. -/
theorem newMarks_markedFrom (nodes : List Node) (start : ℕ) :
    ∃ held, NewMarks highlight nodes (markedFrom highlight origMatchStart origMatchEnd start nodes) held ∧
      held.flatten = window origMatchStart origMatchEnd start (textOf nodes) := by
  induction nodes using Node.forest_induction generalizing start with
  | nil => exact ⟨[], .nil, by simp [window, textOf]⟩
  | text v rest ih =>
    obtain ⟨held, hheld, hflat⟩ := ih (start + v.length)
    rw [markedFrom, textOf, Node.content, window_append, ← hflat, Node.marked]
    rcases cutText_cases start v with ⟨hempty, hcut⟩ | ⟨before, slice, after, hne, hslice, hv, hcut⟩
    · exact ⟨held, hcut ▸ .keep hheld, by rw [hempty, List.nil_append]⟩
    · refine ⟨slice :: held, ?_, by rw [hslice, List.flatten_cons]⟩
      have hnew := @NewMarks.cut highlight before slice after _ _ _ hne hheld
      rw [← hv] at hnew
      rw [hcut, List.append_assoc, List.cons_append]
      exact hnew
  | other v rest ih =>
    obtain ⟨held, hheld, hflat⟩ := ih start
    exact ⟨held, .keep hheld, hflat⟩
  | element e children rest ihc ih =>
    obtain ⟨inner, hinner, hflati⟩ := ihc start
    obtain ⟨held, hheld, hflat⟩ := ih (start + (textOf children).length)
    refine ⟨inner ++ held, .element hinner hheld, ?_⟩
    rw [List.flatten_append, hflati, hflat, textOf, Node.content, window_append]

end Builderbot.Penpal.Highlights
