import Builderbot.DiffViewer.InlineDiff
import Builderbot.Lib.CycleSearch
import Builderbot.Lib.Utf16
import Mathlib.Data.Rat.Floor
import Mathlib.Data.List.Sort
import Mathlib.Order.CompletePartialOrder

/-!
# The stack of sticky headers

`getStructuralDeclarations` of `packages/diff-viewer/src/lib/utils/structuralHeaders.ts` for a file whose scopes are
indented, and the declarations whose scopes contain the line at the top of the view.

The headers cover rows themselves, so `getHeaderAwareActiveStructuralStack` looks for a number of rows that the stack behind
them needs. It follows a map on the numbers up to the maximum, which is a search for a cycle.
-/

namespace Builderbot.DiffViewer.StructuralStack

open Function Lib Lib.CycleSearch

/-! ## The source -/

/-- A declaration, without the texts that are only shown. -/
structure StructuralDeclaration where
  lineIndex : ℕ
  indent : ℕ
  name : JsString
  endLineIndex : Option ℕ := none
deriving DecidableEq, Repr

def defaultStructuralHeaderMaxRows : ℕ := 5

def getIndent : JsString → ℕ
  | [] => 0
  | char :: rest =>
    if char = 0x20 then getIndent rest + 1
    else if char = 0x09 then getIndent rest + 4
    else 0

/-- `\s*`. -/
def skipSpaces (s : JsString) : JsString := s.dropWhile fun u => isSpace u.toNat

/-- `\s+`. -/
def skipSomeSpaces : JsString → Option JsString
  | [] => none
  | u :: s => if isSpace u.toNat then some (skipSpaces s) else none

def skipWord (word s : JsString) : Option JsString := if word <+: s then some (s.drop word.length) else none

def isIdentStart (u : UInt16) : Bool := (0x41 ≤ u && u ≤ 0x5A) || (0x61 ≤ u && u ≤ 0x7A) || u == 0x5F

/-- `\w`. -/
def isWord (u : UInt16) : Bool := isIdentStart u || (0x30 ≤ u && u ≤ 0x39)

/-- `BASIC_IDENT` with the text behind it. An identifier ends at a `\b`. -/
def readIdent : JsString → Option (JsString × JsString)
  | [] => none
  | u :: s => if isIdentStart u then some (u :: s.takeWhile isWord, s.dropWhile isWord) else none

/-- The name of the first of the `pythonPatterns`. -/
def matchClass (line : JsString) : Option JsString := do
  let rest ← skipWord (Utf16.encode "class".toList) (skipSpaces line)
  let (name, _) ← readIdent (← skipSomeSpaces rest)
  return name

/-- `(?:async\s+)?` -/
def skipAsync (s : JsString) : JsString := ((skipWord (Utf16.encode "async".toList) s).bind skipSomeSpaces).getD s

/-- The name of the second one. -/
def matchDef (line : JsString) : Option JsString := do
  let rest ← skipWord (Utf16.encode "def".toList) (skipAsync (skipSpaces line))
  let (name, rest) ← readIdent (← skipSomeSpaces rest)
  if (skipSpaces rest).head? = some 0x28 then return name else none

/-- `parseDeclaration` with the `pythonPatterns`. -/
def parseDeclaration (line : JsString) (lineIndex : ℕ) : Option StructuralDeclaration :=
  ((matchClass line).or (matchDef line)).map fun name => { lineIndex, indent := getIndent line, name }

/-- The lines that `getIndentScopeEndLine` passes over. -/
def isSkipped (line : JsString) : Bool := trim line == [] || (trim line).head? == some 0x23

def endsScope (indent : ℕ) (line : JsString) : Bool := !isSkipped line && getIndent line ≤ indent

def getIndentScopeEndLine (declaration : StructuralDeclaration) (lines : List JsString) : ℕ :=
  match (lines.drop (declaration.lineIndex + 1)).findIdx? (endsScope declaration.indent) with
  | some i => declaration.lineIndex + 1 + i
  | none => lines.length

/-- `getStructuralDeclarations` of a file with indented scopes. -/
def getStructuralDeclarations (lines : List JsString) : List StructuralDeclaration :=
  (lines.zipIdx.filterMap fun p => parseDeclaration p.1 p.2).map fun declaration =>
    { declaration with endLineIndex := some (getIndentScopeEndLine declaration lines) }

/-- The comparison of the sort. -/
def compareDeclarations (a b : StructuralDeclaration) : ℤ :=
  if (a.lineIndex : ℤ) - b.lineIndex = 0 then (a.indent : ℤ) - b.indent else (a.lineIndex : ℤ) - b.lineIndex

/-- The stack at a line. A missing end is infinite. -/
def getActiveStructuralStack (declarations : List StructuralDeclaration) (currentLine : ℤ) : List StructuralDeclaration :=
  let line := max 0 currentLine
  (declarations.filter fun declaration =>
    declaration.lineIndex ≤ line && declaration.endLineIndex.all fun endLineIndex : ℕ => line < endLineIndex).insertionSort
      fun a b => compareDeclarations a b ≤ 0

def getRenderedHeaderRowCount (stack : List StructuralDeclaration) (maxRenderedHeaderRows : ℕ) : ℕ :=
  min stack.length maxRenderedHeaderRows

/-- `none` is a number that is not finite. -/
def normalizeHeaderMaxRows : (maxRenderedHeaderRows : Option ℚ) → ℕ
  | none => defaultStructuralHeaderMaxRows
  | some maxRenderedHeaderRows => (max 0 ⌊maxRenderedHeaderRows⌋).toNat

/-- The `return` that a search ends with. -/
inductive Exit where
  | repeatedStack
  | fixedPoint
  | behindLoop
deriving DecidableEq, Repr

section Search

variable (declarations : List StructuralDeclaration) (topVisibleLine : ℤ)

/-- The loop of `getHeaderAwareActiveStructuralStack` with the iterations left. -/
def searchStack (maxRows : ℕ) : (iterations coveredRows : ℕ) → (stackByCoveredRows : List (ℕ × List StructuralDeclaration)) →
    (activeStack : List StructuralDeclaration) → Exit × List StructuralDeclaration
  | 0, _, _, activeStack => (.behindLoop, activeStack)
  | iterations + 1, coveredRows, stackByCoveredRows, _ =>
    match stackByCoveredRows.lookup coveredRows with
    | some repeatedStack => (.repeatedStack, repeatedStack)
    | none =>
      let activeStack := getActiveStructuralStack declarations (topVisibleLine + coveredRows)
      let nextCoveredRows := getRenderedHeaderRowCount activeStack maxRows
      if nextCoveredRows = coveredRows then (.fixedPoint, activeStack)
      else searchStack maxRows iterations nextCoveredRows ((coveredRows, activeStack) :: stackByCoveredRows) activeStack

/-- `getHeaderAwareActiveStructuralStack`, with the `return` that it ends with. -/
def headerAwareSearch (maxRenderedHeaderRows : Option ℚ) : Exit × List StructuralDeclaration :=
  let maxRows := normalizeHeaderMaxRows maxRenderedHeaderRows
  let activeStack := getActiveStructuralStack declarations topVisibleLine
  searchStack declarations topVisibleLine maxRows (maxRows + 2) (getRenderedHeaderRowCount activeStack maxRows) []
    activeStack

def getHeaderAwareActiveStructuralStack (maxRenderedHeaderRows : Option ℚ) : List StructuralDeclaration :=
  (headerAwareSearch declarations topVisibleLine maxRenderedHeaderRows).2

/-- The rows that the stack behind some covered rows needs. -/
def rowsBehind (maxRows coveredRows : ℕ) : ℕ :=
  getRenderedHeaderRowCount (getActiveStructuralStack declarations (topVisibleLine + coveredRows)) maxRows

end Search

variable {lines : List JsString} {line s rest word : JsString} {u : UInt16} {d e : StructuralDeclaration} {i : ℕ}

/-- The lines of a scope. -/
def StructuralDeclaration.scope (d : StructuralDeclaration) : Set ℕ :=
  {line | d.lineIndex ≤ line ∧ ∀ endLineIndex ∈ d.endLineIndex, line < endLineIndex}

/-! ## Lines with a declaration -/

/-- Trimming leaves the first character that is no space. -/
theorem head?_trim (line : JsString) : (trim line).head? = (skipSpaces line).head? := by
  rw [trim, skipSpaces, List.head?_reverse]
  cases hline : line.dropWhile fun u => isSpace u.toNat with
  | nil => rfl
  | cons u rest =>
    have hu := List.head?_dropWhile_not (fun u : UInt16 => isSpace u.toNat) line
    rw [hline] at hu
    have hu : isSpace u.toNat = false := hu
    rw [List.reverse_cons, List.dropWhile_append]
    split
    · rw [List.dropWhile_cons_of_neg (by simp [hu])]
      rfl
    · rw [List.getLast?_concat]
      rfl

/-- A line that begins with anything but `#` is not skipped. -/
theorem isSkipped_of_head? (h : (skipSpaces line).head? = some u) (hu : u ≠ 0x23) : isSkipped line = false := by
  rw [← head?_trim] at h
  have hne : trim line ≠ [] := by
    intro hnil
    rw [hnil] at h
    exact absurd h.symm (Option.some_ne_none u)
  simp [isSkipped, h, hne, hu]

/-- A word is skipped from its first character on. -/
theorem head?_of_skipWord (h : skipWord word s = some rest) (hword : word.head? = some u) : s.head? = some u := by
  unfold skipWord at h
  split at h
  · rename_i hsub
    obtain ⟨t, rfl⟩ := hsub
    rw [List.head?_append, hword, Option.some_or]
  · exact absurd h.symm (Option.some_ne_none rest)

/-- A class begins with `c`. -/
theorem head?_of_matchClass {name : JsString} (h : matchClass line = some name) : (skipSpaces line).head? = some 0x63 := by
  obtain ⟨rest, hrest, -⟩ := Option.bind_eq_some_iff.mp h
  exact head?_of_skipWord hrest rfl

/-- A function begins with `d`, or with the `a` of `async`. -/
theorem head?_of_matchDef {name : JsString} (h : matchDef line = some name) :
    (skipSpaces line).head? = some 0x64 ∨ (skipSpaces line).head? = some 0x61 := by
  obtain ⟨rest, hrest, -⟩ := Option.bind_eq_some_iff.mp h
  have hdef : (skipAsync (skipSpaces line)).head? = some 0x64 := head?_of_skipWord hrest rfl
  unfold skipAsync at hdef
  cases hasync : skipWord (Utf16.encode "async".toList) (skipSpaces line) with
  | none =>
    rw [hasync] at hdef
    exact .inl hdef
  | some s => exact .inr (head?_of_skipWord hasync rfl)

/-- A declaration has the number and the indent of its line. -/
theorem parseDeclaration_eq_some (h : parseDeclaration line i = some d) :
    isSkipped line = false ∧ d.lineIndex = i ∧ d.indent = getIndent line := by
  obtain ⟨name, hname, rfl⟩ := Option.map_eq_some_iff.mp h
  refine ⟨?_, rfl, rfl⟩
  rcases Option.or_eq_some_iff.mp hname with hclass | ⟨-, hdef⟩
  · exact isSkipped_of_head? (head?_of_matchClass hclass) (by decide)
  · rcases head?_of_matchDef hdef with hhead | hhead
    · exact isSkipped_of_head? hhead (by decide)
    · exact isSkipped_of_head? hhead (by decide)

/-- The declaration is in the lines, with the end of its scope. -/
structure Stands (lines : List JsString) (d : StructuralDeclaration) : Prop where
  line : ∃ line, lines[d.lineIndex]? = some line ∧ isSkipped line = false ∧ d.indent = getIndent line
  endLine : d.endLineIndex = some (getIndentScopeEndLine d lines)

/-- The declarations that are found stand in the lines. -/
theorem stands_of_mem (h : d ∈ getStructuralDeclarations lines) : Stands lines d := by
  obtain ⟨declaration, hdeclaration, rfl⟩ := List.mem_map.mp h
  obtain ⟨⟨line, i⟩, hline, hparse⟩ := List.mem_filterMap.mp hdeclaration
  obtain ⟨hskipped, rfl, hindent⟩ := parseDeclaration_eq_some hparse
  exact ⟨⟨line, List.mem_zipIdx_iff_getElem?.mp hline, hskipped, hindent⟩, rfl⟩

/-- There is one declaration for a line at most, in the order of the lines. -/
theorem pairwise_lineIndex (lines : List JsString) :
    (getStructuralDeclarations lines).Pairwise fun d e => d.lineIndex < e.lineIndex := by
  have hzip : lines.zipIdx.Pairwise fun p q => p.2 < q.2 := by
    rw [← List.pairwise_map (f := Prod.snd) (R := (· < ·)), List.zipIdx_map_snd]
    exact List.pairwise_lt_range'
  refine List.pairwise_map.mpr (hzip.filterMap _ fun p q hlt d hd e he => ?_)
  rw [(parseDeclaration_eq_some hd).2.1, (parseDeclaration_eq_some he).2.1]
  exact hlt

/-! ## Scopes -/

/-- A scope ends at the latest at a line that ends it. -/
theorem getIndentScopeEndLine_le (hlt : d.lineIndex < i) (hline : lines[i]? = some line) (hends : endsScope d.indent line) :
    getIndentScopeEndLine d lines ≤ i := by
  obtain ⟨j, rfl⟩ := Nat.exists_eq_add_of_lt hlt
  have hdrop : (lines.drop (d.lineIndex + 1))[j]? = some line := by
    rw [List.getElem?_drop, ← hline]
    congr 1
    omega
  unfold getIndentScopeEndLine
  split
  · rename_i k hk
    obtain ⟨_, -, hbefore⟩ := List.findIdx?_eq_some_iff_getElem.mp hk
    rcases Nat.lt_or_ge j k with hjk | hkj
    · obtain ⟨_, hget⟩ := List.getElem?_eq_some_iff.mp hdrop
      exact absurd (hget ▸ hends) (hbefore j hjk)
    · omega
  · rename_i hnone
    rw [List.findIdx?_eq_none_iff.mp hnone line (List.mem_of_getElem? hdrop)] at hends
    exact absurd hends Bool.false_ne_true

/-- A scope ends with the lines, or at a line that ends it. -/
theorem getIndentScopeEndLine_cases (d : StructuralDeclaration) (lines : List JsString) :
    getIndentScopeEndLine d lines = lines.length ∨ d.lineIndex < getIndentScopeEndLine d lines ∧
      ∃ line, lines[getIndentScopeEndLine d lines]? = some line ∧ endsScope d.indent line := by
  unfold getIndentScopeEndLine
  split
  · rename_i k hk
    obtain ⟨hk, hends, -⟩ := List.findIdx?_eq_some_iff_getElem.mp hk
    refine .inr ⟨by omega, _, ?_, hends⟩
    rw [← List.getElem?_drop, List.getElem?_eq_getElem hk]
  · exact .inl rfl

theorem getIndentScopeEndLine_le_length (d : StructuralDeclaration) (lines : List JsString) :
    getIndentScopeEndLine d lines ≤ lines.length := by
  rcases getIndentScopeEndLine_cases d lines with hlength | ⟨-, line, hline, -⟩
  · exact hlength.le
  · exact (List.getElem?_eq_some_iff.mp hline).1.le

/-- A scope that begins inside another one is indented more and ends inside it. -/
theorem Stands.inside (he : Stands lines e) (hlt : d.lineIndex < e.lineIndex)
    (hinside : e.lineIndex < getIndentScopeEndLine d lines) :
    d.indent < e.indent ∧ getIndentScopeEndLine e lines ≤ getIndentScopeEndLine d lines := by
  have hindent : d.indent < e.indent := by
    obtain ⟨line, hline, hskipped, hindent⟩ := he.line
    rcases Nat.lt_or_ge d.indent e.indent with hindent' | hle
    · exact hindent'
    · have hends : endsScope d.indent line := by simp [endsScope, hskipped, ← hindent, hle]
      exact absurd (getIndentScopeEndLine_le hlt hline hends) hinside.not_ge
  refine ⟨hindent, ?_⟩
  rcases getIndentScopeEndLine_cases d lines with hlength | ⟨-, line, hline, hends⟩
  · rw [hlength]
    exact getIndentScopeEndLine_le_length e lines
  · refine getIndentScopeEndLine_le hinside hline ?_
    simp only [endsScope, Bool.and_eq_true, decide_eq_true_eq] at hends ⊢
    exact ⟨hends.1, hends.2.trans hindent.le⟩

/-- The scope of a declaration that stands has an end. -/
theorem Stands.mem_scope (hd : Stands lines d) : i ∈ d.scope ↔ d.lineIndex ≤ i ∧ i < getIndentScopeEndLine d lines := by
  simp [StructuralDeclaration.scope, hd.endLine]

/-- A scope that begins later and ends no later is inside. -/
theorem Stands.scope_subset (hd : Stands lines d) (he : Stands lines e) (hlt : d.lineIndex < e.lineIndex)
    (hle : getIndentScopeEndLine e lines ≤ getIndentScopeEndLine d lines) : e.scope ⊆ d.scope := by
  intro i hi
  obtain ⟨hfrom, hto⟩ := he.mem_scope.mp hi
  exact hd.mem_scope.mpr ⟨by omega, by omega⟩

/-- A later declaration is inside the scope or behind it. -/
theorem Stands.nested_or_disjoint (hd : Stands lines d) (he : Stands lines e) (hlt : d.lineIndex < e.lineIndex) :
    e.scope ⊆ d.scope ∨ Disjoint d.scope e.scope := by
  rcases Nat.lt_or_ge e.lineIndex (getIndentScopeEndLine d lines) with hinside | hbehind
  · exact .inl (hd.scope_subset he hlt (he.inside hlt hinside).2)
  · refine .inr (Set.disjoint_left.mpr fun i hid hie => ?_)
    exact absurd (hd.mem_scope.mp hid).2 (hbehind.trans (he.mem_scope.mp hie).1).not_gt

/-- The two declarations may come in any order. -/
theorem scopes_nested_or_disjoint (lines : List JsString) :
    ∀ d ∈ getStructuralDeclarations lines, ∀ e ∈ getStructuralDeclarations lines,
      d.scope ⊆ e.scope ∨ e.scope ⊆ d.scope ∨ Disjoint d.scope e.scope := by
  have : Std.Symm fun d e : StructuralDeclaration =>
      d.scope ⊆ e.scope ∨ e.scope ⊆ d.scope ∨ Disjoint d.scope e.scope := by
    refine ⟨fun d e h => ?_⟩
    rcases h with hsub | hsub | hdisjoint
    · exact .inr (.inl hsub)
    · exact .inl hsub
    · exact .inr (.inr hdisjoint.symm)
  have hpairs := (pairwise_lineIndex lines).imp_of_mem fun {d e} hd he hlt =>
    (stands_of_mem hd).nested_or_disjoint (stands_of_mem he) hlt
  exact (hpairs.imp .inr).forall_of_forall fun d _ => .inl subset_rfl

/-! ## The stack at a line -/

/-- The stack at a line has the declarations whose scope has the line. -/
theorem mem_getActiveStructuralStack {declarations : List StructuralDeclaration} {currentLine : ℤ} :
    d ∈ getActiveStructuralStack declarations currentLine ↔ d ∈ declarations ∧ (max 0 currentLine).toNat ∈ d.scope := by
  rw [getActiveStructuralStack, List.mem_insertionSort, List.mem_filter, Bool.and_eq_true, decide_eq_true_eq]
  refine and_congr_right' (and_congr (by omega) ?_)
  rw [Option.all_eq_true]
  refine forall₂_congr fun endLineIndex _ => ?_
  rw [decide_eq_true_eq]
  omega

/-- The declarations come in the order of the sort. -/
theorem getActiveStructuralStack_pairwise (lines : List JsString) (currentLine : ℤ) :
    (getActiveStructuralStack (getStructuralDeclarations lines) currentLine).Pairwise fun d e =>
      d.lineIndex < e.lineIndex := by
  have hsorted := (pairwise_lineIndex lines).filter fun declaration =>
    declaration.lineIndex ≤ max 0 currentLine &&
      declaration.endLineIndex.all fun endLineIndex : ℕ => max 0 currentLine < endLineIndex
  rw [getActiveStructuralStack, List.Pairwise.insertionSort_eq]
  · exact hsorted
  · refine hsorted.imp fun {d e} hlt => ?_
    rw [compareDeclarations, if_neg (by omega)]
    omega

/-- Two scopes with a common line are nested. -/
theorem getActiveStructuralStack_nested (lines : List JsString) (currentLine : ℤ) :
    (getActiveStructuralStack (getStructuralDeclarations lines) currentLine).Pairwise fun outer inner =>
      inner.scope ⊂ outer.scope ∧ outer.indent < inner.indent := by
  refine (getActiveStructuralStack_pairwise lines currentLine).imp_of_mem fun {d e} hd he hlt => ?_
  obtain ⟨hd, hdline⟩ := mem_getActiveStructuralStack.mp hd
  obtain ⟨he, heline⟩ := mem_getActiveStructuralStack.mp he
  have hd := stands_of_mem hd
  have he := stands_of_mem he
  have hdends := (hd.mem_scope.mp hdline).2
  have hestarts := (he.mem_scope.mp heline).1
  obtain ⟨hindent, hend⟩ := he.inside hlt (by omega)
  refine ⟨⟨hd.scope_subset he hlt hend, fun hsub => ?_⟩, hindent⟩
  -- the first line of the outer scope is not in the inner one
  have hfirst := he.mem_scope.mp (hsub (hd.mem_scope.mpr ⟨le_rfl, by omega⟩))
  omega

/-! ## The search for a number of rows -/

section Search

variable {declarations : List StructuralDeclaration} {topVisibleLine : ℤ} {maxRows iterations k : ℕ} {seen : List ℕ}

/-- The search remembers stacks where the abstract one remembers numbers of rows. -/
theorem searchStack_of_search {coveredRows : ℕ}
    (h : search (rowsBehind declarations topVisibleLine maxRows) iterations seen coveredRows = some k)
    (activeStack : List StructuralDeclaration) :
    let result := searchStack declarations topVisibleLine maxRows iterations coveredRows
      (seen.map fun k : ℕ => (k, getActiveStructuralStack declarations (topVisibleLine + k))) activeStack
    result.1 ≠ .behindLoop ∧ result.2 = getActiveStructuralStack declarations (topVisibleLine + k) := by
  induction iterations generalizing seen coveredRows activeStack with
  | zero => exact absurd h (Option.some_ne_none k).symm
  | succ iterations ih =>
    rw [search] at h
    rw [searchStack]
    by_cases hseen : coveredRows ∈ seen
    · rw [if_pos (.inl hseen)] at h
      obtain rfl := Option.some.inj h
      rw [List.lookup_graph _ hseen]
      exact ⟨Exit.noConfusion, rfl⟩
    · have hnone : (seen.map fun k : ℕ => (k, getActiveStructuralStack declarations (topVisibleLine + k))).lookup
          coveredRows = none := by
        rw [List.lookup_eq_none_iff, List.forall_mem_map]
        intro j hj
        exact bne_iff_ne.mpr fun h : coveredRows = j => hseen (h ▸ hj)
      rw [hnone]
      dsimp only
      rw [← rowsBehind]
      by_cases hfixed : rowsBehind declarations topVisibleLine maxRows coveredRows = coveredRows
      · rw [if_pos (.inr hfixed)] at h
        obtain rfl := Option.some.inj h
        rw [if_pos hfixed]
        exact ⟨Exit.noConfusion, rfl⟩
      · rw [if_neg (not_or.mpr ⟨hseen, hfixed⟩)] at h
        rw [if_neg hfixed]
        exact ih h _

/-- No more rows are covered than there may be. -/
theorem rowsBehind_mapsTo :
    Set.MapsTo (rowsBehind declarations topVisibleLine maxRows) (Finset.range (maxRows + 1))
      (Finset.range (maxRows + 1)) := by
  intro k _
  simp [rowsBehind, getRenderedHeaderRowCount]

/-- The search of the source is a search for a cycle: the loop has one iteration more than there are numbers of rows. -/
theorem headerAwareSearch_spec (declarations : List StructuralDeclaration) (topVisibleLine : ℤ)
    (maxRenderedHeaderRows : Option ℚ) :
    let maxRows := normalizeHeaderMaxRows maxRenderedHeaderRows
    let initialRows := getRenderedHeaderRowCount (getActiveStructuralStack declarations topVisibleLine) maxRows
    ∃ k, search (rowsBehind declarations topVisibleLine maxRows) (maxRows + 2) [] initialRows = some k ∧
      (headerAwareSearch declarations topVisibleLine maxRenderedHeaderRows).1 ≠ .behindLoop ∧
      (headerAwareSearch declarations topVisibleLine maxRenderedHeaderRows).2 =
        getActiveStructuralStack declarations (topVisibleLine + k) := by
  intro maxRows initialRows
  have hinitial : initialRows ∈ Finset.range (maxRows + 1) := by
    simp [initialRows, getRenderedHeaderRowCount]
  obtain ⟨k, hk⟩ : ∃ k, search (rowsBehind declarations topVisibleLine maxRows) (maxRows + 2) [] initialRows = some k :=
    exists_search_eq_some rowsBehind_mapsTo List.nodup_nil (fun k hk => by cases hk) hinitial (by simp)
  exact ⟨k, hk, searchStack_of_search hk (getActiveStructuralStack declarations topVisibleLine)⟩

end Search

end Builderbot.DiffViewer.StructuralStack
