import Builderbot.DiffViewer.ViewerState
import Builderbot.DiffViewer.InlineDiff
import Builderbot.Lib.Utf16

/-!
# The search across files

`createSearchState` of `packages/diff-viewer/src/lib/state/searchState.svelte.ts` and `findMatches` of
`utils/diffSearch.ts`. A search loads one diff after another and writes its results at the end; a step is what runs
between two awaits. `toLowerCase` is that of JavaScript.

`getFlattenedResults` keeps its last result and returns it for the same file list and the same map. Both are replaced
and never changed in place, so the model computes the result anew.
-/

namespace Builderbot.DiffViewer

open Git (Text FileDiff FileDiffSummary FileContent)

/-! ## Matches -/

structure MatchLocation where
  startCol : ℕ
  endCol : ℕ
deriving DecidableEq, Repr

/-- A match on the right side of a diff line. -/
structure SearchMatch where
  lineIndex : ℕ
  right : MatchLocation
deriving DecidableEq, Repr

/-- `MAX_MATCHES`. -/
def MAX_MATCHES : ℕ := 1000

inductive SearchScope where
  | all
  | changes
deriving DecidableEq, Repr

/-- The loop of `findInString` from a position on. -/
def findFrom (lowerQuery : JsString) (queryLength : ℕ) : ℕ → JsString → List MatchLocation
  | _, [] => []
  | pos, u :: lowerContent =>
    if lowerQuery <+: u :: lowerContent then
      ⟨pos, pos + queryLength⟩ :: findFrom lowerQuery queryLength (pos + 1) lowerContent
    else findFrom lowerQuery queryLength (pos + 1) lowerContent

section

variable (toLowerCase : JsString → JsString)

def findInString (content query : JsString) : List MatchLocation :=
  if content = [] ∨ query = [] then []
  else findFrom (toLowerCase query) query.length 0 (toLowerCase content)

/-- The loop of `findMatches` from a line on. -/
def findMatchesFrom (query : JsString) (skip : ℕ → Bool) : ℕ → List JsString → List SearchMatch → List SearchMatch
  | _, [], matchList => matchList
  | i, line :: afterLines, matchList =>
    if MAX_MATCHES ≤ matchList.length then matchList
    else if skip i then findMatchesFrom query skip (i + 1) afterLines matchList
    else
      let found := (findInString toLowerCase line query).map fun location => ⟨i, location⟩
      findMatchesFrom query skip (i + 1) afterLines (matchList ++ found.take (MAX_MATCHES - matchList.length))

/-- `changedLineIndices` is only read in the scope `changes`. -/
def findMatches (afterLines : List JsString) (query : JsString) (scope : SearchScope) (changedLineIndices : ℕ → Bool) :
    List SearchMatch :=
  if query = [] then []
  else findMatchesFrom toLowerCase query (fun i => scope = .changes && !changedLineIndices i) 0 afterLines []

end

/-- `getTextLines(diff, 'after')`. -/
def getTextLines (diff : FileDiff) : List JsString :=
  match diff.after with
  | some ⟨_, .text lines⟩ => lines.map Lib.Utf16.encode
  | _ => []

def getChangedLineIndices (diff : FileDiff) (i : ℕ) : Bool :=
  diff.alignments.any fun alignment => alignment.changed && decide (alignment.after.start ≤ i ∧ i < alignment.after.stop)

/-! ## Results -/

structure FileSearchResult where
  filePath : Text
  matchList : List SearchMatch
  isLimited : Bool
  displayLimit : ℕ
deriving DecidableEq, Repr

structure FlattenedResult where
  filePath : Text
  result : SearchMatch
  globalIndex : ℕ
  localIndex : ℕ
deriving DecidableEq, Repr

abbrev FileResults := Table Text FileSearchResult

/-- The result of a search in one file, if its diff was loaded and matches. -/
def searchFile (toLowerCase : JsString → JsString) (query : JsString) (scope : SearchScope) (path : Text)
    (diff : Option FileDiff) : Option FileSearchResult :=
  diff.bind fun diff =>
    let matchList := findMatches toLowerCase (getTextLines diff) query scope (getChangedLineIndices diff)
    if matchList = [] then none else some ⟨path, matchList, decide (MAX_MATCHES ≤ matchList.length), 5⟩

/-- `getFlattenedResults` from a file and a global index on. -/
def flattenFrom (results : FileResults) : ℕ → List FileDiffSummary → List FlattenedResult
  | _, [] => []
  | globalIndex, summary :: files =>
    match results.lookup (fileSummaryPath summary) with
    | none => flattenFrom results globalIndex files
    | some fileResult =>
      (fileResult.matchList.mapIdx fun localIndex result =>
        ⟨fileSummaryPath summary, result, globalIndex + localIndex, localIndex⟩)
        ++ flattenFrom results (globalIndex + fileResult.matchList.length) files

/-! ## State -/

/-- A search that is loading diffs, or one that is over. -/
structure Search where
  /-- Searches are numbered as they start. -/
  number : ℕ
  query : JsString
  scope : SearchScope
  files : List FileDiffSummary
  /-- The files whose diff has not come. -/
  remaining : List FileDiffSummary
  newResults : FileResults := ∅
  totalMatches : ℕ := 0
  /-- The diffs that have come. -/
  loaded : List (Text × Option FileDiff) := []
deriving DecidableEq

structure SearchState where
  isOpen : Bool := false
  query : JsString := []
  scope : SearchScope := .all
  fileResults : FileResults := ∅
  currentResultIndex : ℕ := 0
  totalMatches : ℕ := 0
  loading : Bool := false
  searchedFileCount : ℕ := 0
  totalFileCount : ℕ := 0
  /-- The searches under way. -/
  searches : List Search := []
  /-- The number of searches so far. -/
  started : ℕ := 0
  /-- The last search, unless the search was closed or emptied since. -/
  latest : Option ℕ := none
  /-- The searches that are over. -/
  finished : List Search := []
deriving DecidableEq

namespace SearchState

variable (s : SearchState)

def getFlattenedResults (files : List FileDiffSummary) : List FlattenedResult := flattenFrom s.fileResults 0 files

def closeSearch : SearchState :=
  { s with
    isOpen := false
    query := []
    scope := .all
    fileResults := ∅
    currentResultIndex := 0
    totalMatches := 0
    loading := false
    searchedFileCount := 0
    totalFileCount := 0
    latest := none }

def clearSearch : SearchState :=
  { s with fileResults := ∅, currentResultIndex := 0, totalMatches := 0, searchedFileCount := 0, latest := none }

/-- The end of `performSearch`. -/
def finish (search : Search) : SearchState :=
  { s with
    fileResults := search.newResults
    totalMatches := search.totalMatches
    currentResultIndex := if 0 < search.totalMatches then 0 else s.currentResultIndex
    loading := false
    finished := search :: s.finished }

/-- `performSearch` up to its first await. -/
def performSearch (query : JsString) (files : List FileDiffSummary) : SearchState :=
  if query = [] then s.clearSearch
  else
    let search : Search := { number := s.started, query, scope := s.scope, files, remaining := files }
    let searching := { s with
      loading := true
      query
      searchedFileCount := 0
      totalFileCount := files.length
      started := s.started + 1
      latest := some s.started }
    if files = [] then searching.finish search else { searching with searches := s.searches ++ [search] }

end SearchState

/-- The body of the loop, once the diff of the first of the remaining files has come. -/
def Search.load (toLowerCase : JsString → JsString) (search : Search) (path : Text) (diff : Option FileDiff) : Search :=
  let rest := { search with remaining := search.remaining.tail, loaded := search.loaded ++ [(path, diff)] }
  match searchFile toLowerCase search.query search.scope path diff with
  | none => rest
  | some fileResult => { rest with
      newResults := search.newResults.insert path fileResult
      totalMatches := search.totalMatches + fileResult.matchList.length }

namespace SearchState

variable (toLowerCase : JsString → JsString) (s : SearchState)

/-- A diff comes for the search at `i`. -/
def load (i : ℕ) (search : Search) (path : Text) (diff : Option FileDiff) : SearchState :=
  let next := search.load toLowerCase path diff
  let counted := { s with searchedFileCount := s.searchedFileCount + 1 }
  if next.remaining = [] then { counted with searches := s.searches.eraseIdx i }.finish next
  else { counted with searches := s.searches.set i next }

/-- `fileResults` with a higher display limit for a file. -/
def withLimit (path : Text) (limit : FileSearchResult → ℕ) : FileResults :=
  match s.fileResults.lookup path with
  | none => s.fileResults
  | some fileResult =>
    s.fileResults.insert path { fileResult with displayLimit := min (limit fileResult) fileResult.matchList.length }

/-- Go to a result, and show it if it is hidden by "Show More". -/
def goToResult (result : FlattenedResult) (index : ℕ) : SearchState :=
  let hidden := (s.fileResults.lookup result.filePath).any fun fileResult => fileResult.displayLimit ≤ result.localIndex
  { s with
    fileResults :=
      if hidden then s.withLimit result.filePath fun fileResult => max (result.localIndex + 1) (fileResult.displayLimit + 10)
      else s.fileResults
    currentResultIndex := index }

/-- `goToNextResult` and `goToPrevResult`, whose only difference is the index. -/
def goToIndex (files : List FileDiffSummary) (index : ℕ → ℕ) : SearchState :=
  let flattened := s.getFlattenedResults files
  match flattened[index flattened.length]? with
  | none => s
  | some result => s.goToResult result (index flattened.length)

def goToNextResult (files : List FileDiffSummary) : SearchState :=
  s.goToIndex files fun length => (s.currentResultIndex + 1) % length

def goToPrevResult (files : List FileDiffSummary) : SearchState :=
  s.goToIndex files fun length => (s.currentResultIndex + length - 1) % length

/-- `expandFileResults`. -/
def expandFileResults (filePath : Text) : SearchState :=
  { s with fileResults := s.withLimit filePath fun fileResult => fileResult.displayLimit + 10 }

def selectFirstResultInFile (files : List FileDiffSummary) (filePath : Text) : SearchState :=
  if s.isOpen && (s.fileResults.lookup filePath).isSome then
    match (s.getFlattenedResults files).find? fun result => result.filePath = filePath with
    | none => s
    | some result => { s with currentResultIndex := result.globalIndex }
  else s

end SearchState

inductive SearchEvent where
  | openSearch
  | closeSearch
  | setSearchScope (scope : SearchScope)
  | performSearch (query : JsString) (files : List FileDiffSummary)
  /-- The diff that the search at `i` waits for comes. -/
  | load (i : ℕ) (diff : Option FileDiff)
  | goToNextResult (files : List FileDiffSummary)
  | goToPrevResult (files : List FileDiffSummary)
  | expandFileResults (filePath : Text)
  | selectFirstResultInFile (files : List FileDiffSummary) (filePath : Text)
deriving DecidableEq

namespace SearchState

def step (toLowerCase : JsString → JsString) (s : SearchState) : SearchEvent → Option SearchState
  | .openSearch => some { s with isOpen := true }
  | .closeSearch => some s.closeSearch
  | .setSearchScope scope => some { s with scope }
  | .performSearch query files => some (s.performSearch query files)
  | .load i diff =>
    s.searches[i]?.bind fun search =>
      search.remaining.head?.map fun summary => s.load toLowerCase i search (fileSummaryPath summary) diff
  | .goToNextResult files => some (s.goToNextResult files)
  | .goToPrevResult files => some (s.goToPrevResult files)
  | .expandFileResults filePath => some (s.expandFileResults filePath)
  | .selectFirstResultInFile files filePath => some (s.selectFirstResultInFile files filePath)

end SearchState

/-! ## The result of a search -/

section

variable (toLowerCase : JsString → JsString) (query : JsString) (scope : SearchScope)

/-- The results in the given diffs, one file after the other. -/
def searchFiles (loaded : List (Text × Option FileDiff)) : FileResults :=
  loaded.foldl (fun results file =>
    match searchFile toLowerCase query scope file.1 file.2 with
    | none => results
    | some fileResult => results.insert file.1 fileResult) ∅

/-- The number of matches in a file. -/
def matchCount (file : Text × Option FileDiff) : ℕ :=
  ((searchFile toLowerCase query scope file.1 file.2).map (·.matchList.length)).getD 0

end

/-- The number of matches in all results. -/
def resultCount (results : FileResults) : ℕ :=
  (results.keys.map fun path => ((results.lookup path).map (·.matchList.length)).getD 0).sum

/-- The same results, but for what is hidden of them. -/
def SameMatches (results results' : FileResults) : Prop :=
  ∀ path, (results.lookup path).map (fun r => (r.filePath, r.matchList, r.isLimited))
    = (results'.lookup path).map (fun r => (r.filePath, r.matchList, r.isLimited))

variable {files : List FileDiffSummary} {results results' : FileResults} {search : Search}

namespace SearchState

variable {toLowerCase : JsString → JsString} {s t : SearchState}

/-- The state shows the result of the search. -/
structure Shows (toLowerCase : JsString → JsString) (s : SearchState) (search : Search) : Prop where
  loaded : search.loaded.map Prod.fst = search.files.map fileSummaryPath
  results : SameMatches s.fileResults (searchFiles toLowerCase search.query search.scope search.loaded)
  totalMatches : s.totalMatches = (search.loaded.map (matchCount toLowerCase search.query search.scope)).sum
  resultCount : (search.files.map fileSummaryPath).Nodup → s.totalMatches = resultCount s.fileResults
  index : s.currentResultIndex = 0 ∨ s.currentResultIndex < (s.getFlattenedResults search.files).length

/-- The state shows the result of the last search, or nothing if the search was closed or emptied since. -/
def ShowsLatest (toLowerCase : JsString → JsString) (s : SearchState) : Prop :=
  match s.latest with
  | none => s.fileResults = ∅ ∧ s.totalMatches = 0 ∧ s.currentResultIndex = 0
  | some number => ∃ search ∈ s.finished, search.number = number ∧ s.Shows toLowerCase search

/-- The file list has no more results than that of the last search, if that is over. -/
def Fits (s : SearchState) (files : List FileDiffSummary) : Prop :=
  ∀ search ∈ s.finished, s.latest = some search.number →
    (s.getFlattenedResults files).length ≤ (s.getFlattenedResults search.files).length

/-- A search may end: it is the last one, and has a match unless the first result is the current one; or the last one
is still to end. -/
def MayEnd (toLowerCase : JsString → JsString) (s : SearchState) (search : Search) (path : Text) (diff : Option FileDiff) :
    Prop :=
  if s.latest = some search.number then
    s.currentResultIndex = 0 ∨
      ∃ file ∈ search.loaded ++ [(path, diff)], 0 < matchCount toLowerCase search.query search.scope file
  else ∃ other ∈ s.searches, s.latest = some other.number

/-- The condition on a step. -/
def Timely (toLowerCase : JsString → JsString) (s : SearchState) : SearchEvent → Prop
  | .performSearch query files => query ≠ [] → files = [] → s.currentResultIndex = 0
  | .load i diff => ∀ search ∈ s.searches[i]?, ∀ summary ∈ search.remaining.head?, search.remaining.tail = [] →
      s.MayEnd toLowerCase search (fileSummaryPath summary) diff
  | .goToNextResult files | .goToPrevResult files | .selectFirstResultInFile files _ => s.Fits files
  | .openSearch | .closeSearch | .setSearchScope _ | .expandFileResults _ => True

/-! ## Flattened results -/

theorem SameMatches.refl (results : FileResults) : SameMatches results results := fun _ => rfl

theorem SameMatches.trans {results'' : FileResults} (h : SameMatches results results')
    (h' : SameMatches results' results'') : SameMatches results results'' := fun path => (h path).trans (h' path)

/-- The flat list depends on the matches, not on how many are shown. -/
theorem flattenFrom_congr (h : SameMatches results results') (globalIndex : ℕ)
    (files : List FileDiffSummary) : flattenFrom results globalIndex files = flattenFrom results' globalIndex files := by
  induction files generalizing globalIndex with
  | nil => rfl
  | cons summary files ih =>
    have hpath := h (fileSummaryPath summary)
    rw [flattenFrom, flattenFrom]
    cases hlookup : results.lookup (fileSummaryPath summary) with
    | none =>
      rw [hlookup, Option.map_none] at hpath
      rw [Option.map_eq_none_iff.mp hpath.symm]
      exact ih globalIndex
    | some fileResult =>
      rw [hlookup, Option.map_some] at hpath
      obtain ⟨fileResult', hlookup', hsame⟩ := Option.map_eq_some_iff.mp hpath.symm
      rw [Prod.mk.injEq, Prod.mk.injEq] at hsame
      rw [hlookup']
      dsimp only
      rw [hsame.2.1, ih]

/-- The global indices are positions in the flattened list. -/
theorem globalIndex_lt {globalIndex : ℕ} {result : FlattenedResult}
    (h : result ∈ flattenFrom results globalIndex files) :
    result.globalIndex < globalIndex + (flattenFrom results globalIndex files).length := by
  induction files generalizing globalIndex with
  | nil => exact absurd h List.not_mem_nil
  | cons summary files ih =>
    rw [flattenFrom] at h ⊢
    split at h
    next => exact ih h
    next fileResult hlookup =>
      rw [List.length_append, List.length_mapIdx]
      rcases List.mem_append.mp h with h | h
      · obtain ⟨i, hi, rfl⟩ := List.mem_mapIdx.mp h
        show globalIndex + i < _
        omega
      · have := ih h
        omega

theorem resultCount_congr (h : SameMatches results results') :
    resultCount results = resultCount results' := by
  have hkeys : results.keys.Perm results'.keys := by
    apply (List.perm_ext_iff_of_nodup results.keys_nodup results'.keys_nodup).mpr
    intro path
    rw [← AList.mem_keys, ← AList.mem_keys, ← AList.lookup_isSome, ← AList.lookup_isSome, ← Option.isSome_map, h path,
      Option.isSome_map]
  have hcounts : (fun path => ((results.lookup path).map (·.matchList.length)).getD 0)
      = fun path => ((results'.lookup path).map (·.matchList.length)).getD 0 := by
    funext path
    have hpath := congrArg (Option.map fun r => r.2.1.length) (h path)
    rw [Option.map_map, Option.map_map] at hpath
    exact congrArg (Option.getD · 0) hpath
  rw [resultCount, resultCount, hcounts]
  exact List.Perm.sum_nat (hkeys.map _)

/-- Showing more of a file finds nothing new. -/
theorem sameMatches_withLimit (path : Text) (limit : FileSearchResult → ℕ) :
    SameMatches (s.withLimit path limit) s.fileResults := by
  intro path'
  rw [withLimit]
  split
  next => rfl
  next fileResult hlookup =>
    by_cases hpath : path' = path
    · subst hpath
      rw [AList.lookup_insert, hlookup]
      rfl
    · rw [AList.lookup_insert_ne hpath]

/-! ## Searches -/

section

variable {query : JsString} {scope : SearchScope} {loaded : List (Text × Option FileDiff)} {file : Text × Option FileDiff}

/-- One more file is searched after the others. -/
theorem searchFiles_concat :
    searchFiles toLowerCase query scope (loaded ++ [file]) =
      match searchFile toLowerCase query scope file.1 file.2 with
      | none => searchFiles toLowerCase query scope loaded
      | some fileResult => (searchFiles toLowerCase query scope loaded).insert file.1 fileResult := by
  rw [searchFiles, List.foldl_append]
  rfl

/-- Only files that were loaded have results. -/
theorem mem_of_mem_searchFiles {path : Text} (h : path ∈ searchFiles toLowerCase query scope loaded) :
    path ∈ loaded.map Prod.fst := by
  induction loaded using List.reverseRecOn with
  | nil => exact absurd h (AList.notMem_empty path)
  | append_singleton loaded file ih =>
    rw [List.map_append, List.mem_append]
    rw [searchFiles_concat] at h
    split at h
    next => exact Or.inl (ih h)
    next =>
      rcases (AList.mem_insert _).mp h with h | h
      · exact Or.inr (List.mem_singleton.mpr h)
      · exact Or.inl (ih h)

/-- A file that is searched twice is counted twice. -/
theorem resultCount_searchFiles (h : (loaded.map Prod.fst).Nodup) :
    resultCount (searchFiles toLowerCase query scope loaded) = (loaded.map (matchCount toLowerCase query scope)).sum := by
  induction loaded using List.reverseRecOn with
  | nil => rfl
  | append_singleton loaded file ih =>
    rw [List.map_append, List.nodup_append] at h
    have hnew : file.1 ∉ searchFiles toLowerCase query scope loaded := fun hmem =>
      h.2.2 _ (mem_of_mem_searchFiles hmem) _ (List.mem_singleton_self _) rfl
    rw [List.map_append, List.sum_append, ← ih h.1, searchFiles_concat]
    cases hfile : searchFile toLowerCase query scope file.1 file.2 with
    | none => simp [matchCount, hfile]
    | some fileResult =>
      -- the other files keep their results
      have hothers : ∀ path ∈ (searchFiles toLowerCase query scope loaded).keys, path ≠ file.1 := by
        rintro path hpath rfl
        exact hnew (AList.mem_keys.mpr hpath)
      have hkeys : ((searchFiles toLowerCase query scope loaded).insert file.1 fileResult).keys
          = file.1 :: (searchFiles toLowerCase query scope loaded).keys := by
        rw [AList.keys, AList.entries_insert_of_notMem hnew]
        rfl
      dsimp only
      rw [resultCount, hkeys, List.map_cons, AList.lookup_insert, List.sum_cons, Nat.add_comm]
      congr 1
      · apply congrArg
        apply List.map_congr_left
        intro path hpath
        rw [AList.lookup_insert_ne (hothers path hpath)]
      · simp [matchCount, hfile]

end

/-- What a search has found in the diffs that have come. -/
structure Sound (toLowerCase : JsString → JsString) (search : Search) : Prop where
  files : search.loaded.map Prod.fst ++ search.remaining.map fileSummaryPath = search.files.map fileSummaryPath
  results : search.newResults = searchFiles toLowerCase search.query search.scope search.loaded
  totalMatches : search.totalMatches = (search.loaded.map (matchCount toLowerCase search.query search.scope)).sum

/-- A loaded file adds what its search finds. -/
theorem Sound.load (h : Sound toLowerCase search) {summary : FileDiffSummary}
    (hsummary : search.remaining.head? = some summary) (diff : Option FileDiff) :
    Sound toLowerCase (search.load toLowerCase (fileSummaryPath summary) diff) := by
  obtain ⟨rest, hrest⟩ := List.head?_eq_some_iff.mp hsummary
  have hfiles : (search.loaded ++ [(fileSummaryPath summary, diff)]).map Prod.fst
      ++ search.remaining.tail.map fileSummaryPath = search.files.map fileSummaryPath := by
    have hold := h.files
    rw [hrest] at hold ⊢
    simpa using hold
  rw [Search.load]
  cases hfile : searchFile toLowerCase search.query search.scope (fileSummaryPath summary) diff with
  | none =>
    refine ⟨hfiles, ?_, ?_⟩
    · show search.newResults = searchFiles _ _ _ (search.loaded ++ [_])
      rw [searchFiles_concat, hfile]
      exact h.results
    · show search.totalMatches = ((search.loaded ++ [_]).map _).sum
      rw [List.map_append, List.sum_append, ← h.totalMatches]
      simp [matchCount, hfile]
  | some fileResult =>
    refine ⟨hfiles, ?_, ?_⟩
    · show search.newResults.insert _ _ = searchFiles _ _ _ (search.loaded ++ [_])
      rw [searchFiles_concat, hfile, h.results]
    · show search.totalMatches + _ = ((search.loaded ++ [_]).map _).sum
      rw [List.map_append, List.sum_append, ← h.totalMatches]
      simp [matchCount, hfile]

theorem load_fields (search : Search) (path : Text) (diff : Option FileDiff) :
    (search.load toLowerCase path diff).number = search.number ∧
      (search.load toLowerCase path diff).remaining = search.remaining.tail ∧
      (search.load toLowerCase path diff).query = search.query ∧ (search.load toLowerCase path diff).scope = search.scope ∧
      (search.load toLowerCase path diff).loaded = search.loaded ++ [(path, diff)] := by
  rw [Search.load]
  dsimp only
  split <;> exact ⟨rfl, rfl, rfl, rfl, rfl⟩

/-- A search that ends shows its result, unless it has no match and the first result is not the current one. -/
theorem Sound.shows (h : Sound toLowerCase search) (hremaining : search.remaining = [])
    (hindex : s.currentResultIndex = 0 ∨
      ∃ file ∈ search.loaded, 0 < matchCount toLowerCase search.query search.scope file) :
    (s.finish search).Shows toLowerCase search := by
  have hfiles := h.files
  rw [hremaining, List.map_nil, List.append_nil] at hfiles
  refine ⟨hfiles, ?_, h.totalMatches, fun hnodup => ?_, Or.inl ?_⟩
  · show SameMatches search.newResults _
    rw [h.results]
    exact SameMatches.refl _
  · show search.totalMatches = resultCount search.newResults
    rw [h.totalMatches, h.results]
    exact (resultCount_searchFiles (hfiles ▸ hnodup)).symm
  · show (if 0 < search.totalMatches then 0 else s.currentResultIndex) = 0
    split
    next => rfl
    next hnone =>
      refine hindex.resolve_right ?_
      rintro ⟨file, hfile, hpos⟩
      rw [h.totalMatches] at hnone
      exact hnone (List.sum_pos_iff_exists_pos_nat.mpr ⟨_, List.mem_map_of_mem hfile, hpos⟩)

/-! ## The invariant -/

/-- The searches under way are sound, and unless the last one is among them its result is shown. -/
structure Inv (toLowerCase : JsString → JsString) (s : SearchState) : Prop where
  sound : ∀ search ∈ s.searches, Sound toLowerCase search
  shown : (∃ search ∈ s.searches, s.latest = some search.number) ∨ s.ShowsLatest toLowerCase

/-- Navigation and "Show More" change no result, and go to a result of the last search. -/
theorem ShowsLatest.navigate (h : s.ShowsLatest toLowerCase) (hlatest : t.latest = s.latest)
    (hfinished : t.finished = s.finished) (htotal : t.totalMatches = s.totalMatches)
    (hsame : SameMatches t.fileResults s.fileResults)
    (hnone : s.fileResults = ∅ → t.fileResults = ∅ ∧ t.currentResultIndex = s.currentResultIndex)
    (hindex : ∀ search ∈ s.finished, s.latest = some search.number → t.currentResultIndex = s.currentResultIndex ∨
      t.currentResultIndex < (s.getFlattenedResults search.files).length) : t.ShowsLatest toLowerCase := by
  rw [ShowsLatest] at h ⊢
  rw [hlatest]
  cases hs : s.latest with
  | none =>
    rw [hs] at h
    obtain ⟨hresults, hindex'⟩ := hnone h.1
    exact ⟨hresults, htotal.trans h.2.1, hindex'.trans h.2.2⟩
  | some number =>
    rw [hs] at h
    obtain ⟨search, hsearch, hnumber, hshows⟩ := h
    have hflat : t.getFlattenedResults search.files = s.getFlattenedResults search.files := flattenFrom_congr hsame _ _
    refine ⟨search, hfinished ▸ hsearch, hnumber, hshows.loaded, SameMatches.trans hsame hshows.results,
      htotal.trans hshows.totalMatches, fun hnodup => ?_, ?_⟩
    · rw [htotal, hshows.resultCount hnodup, resultCount_congr hsame]
    · rw [hflat]
      rcases hindex search hsearch (by rw [hs, hnumber]) with heq | hlt
      · rw [heq]
        exact hshows.index
      · exact Or.inr hlt

/-- Going to another result concerns no search. -/
theorem Inv.navigate (h : s.Inv toLowerCase) (hsearches : t.searches = s.searches) (hlatest : t.latest = s.latest)
    (hfinished : t.finished = s.finished) (htotal : t.totalMatches = s.totalMatches)
    (hsame : SameMatches t.fileResults s.fileResults)
    (hnone : s.fileResults = ∅ → t.fileResults = ∅ ∧ t.currentResultIndex = s.currentResultIndex)
    (hindex : ∀ search ∈ s.finished, s.latest = some search.number → t.currentResultIndex = s.currentResultIndex ∨
      t.currentResultIndex < (s.getFlattenedResults search.files).length) : t.Inv toLowerCase := by
  refine ⟨fun search hsearch => h.sound search (hsearches ▸ hsearch), ?_⟩
  rw [hsearches, hlatest]
  exact h.shown.imp_right fun hshown => hshown.navigate hlatest hfinished htotal hsame hnone hindex

theorem withLimit_eq_empty (path : Text) (limit : FileSearchResult → ℕ) (h : s.fileResults = ∅) :
    s.withLimit path limit = ∅ := by
  rw [withLimit, h, AList.lookup_empty]

theorem flattenFrom_empty (globalIndex : ℕ) (files : List FileDiffSummary) : flattenFrom ∅ globalIndex files = [] := by
  induction files with
  | nil => rfl
  | cons summary files ih =>
    rw [flattenFrom, AList.lookup_empty]
    exact ih

theorem Inv.goToIndex (h : s.Inv toLowerCase) (hfits : s.Fits files) (index : ℕ → ℕ) :
    (s.goToIndex files index).Inv toLowerCase := by
  rw [SearchState.goToIndex]
  cases hresult : (s.getFlattenedResults files)[index (s.getFlattenedResults files).length]? with
  | none => exact h
  | some result =>
    have hlt := (List.getElem?_eq_some_iff.mp hresult).1
    refine h.navigate rfl rfl rfl rfl ?_ (fun hempty => ?_) fun search hsearch hlatest =>
      Or.inr (Nat.lt_of_lt_of_le hlt (hfits search hsearch hlatest))
    · show SameMatches (if _ then _ else s.fileResults) s.fileResults
      split
      next => exact sameMatches_withLimit _ _
      next => exact SameMatches.refl _
    · -- without results there is none to go to
      rw [getFlattenedResults, hempty, flattenFrom_empty] at hlt
      exact absurd hlt (Nat.not_lt_zero _)

theorem Inv.selectFirstResultInFile (h : s.Inv toLowerCase) (hfits : s.Fits files)
    (filePath : Text) : (s.selectFirstResultInFile files filePath).Inv toLowerCase := by
  rw [SearchState.selectFirstResultInFile]
  split
  next hopen =>
    cases hresult : (s.getFlattenedResults files).find? fun result => result.filePath = filePath with
    | none => exact h
    | some result =>
      have hlt := globalIndex_lt (List.mem_of_find?_eq_some hresult)
      rw [Nat.zero_add] at hlt
      refine h.navigate rfl rfl rfl rfl (SameMatches.refl _) (fun hempty => ?_) fun search hsearch hlatest =>
        Or.inr (Nat.lt_of_lt_of_le hlt (hfits search hsearch hlatest))
      rw [hempty, AList.lookup_empty] at hopen
      simp at hopen
  next => exact h

/-- A new search starts without results. -/
theorem Inv.performSearch (h : s.Inv toLowerCase) {query : JsString}
    (htimely : query ≠ [] → files = [] → s.currentResultIndex = 0) : (s.performSearch query files).Inv toLowerCase := by
  have hnew (search : Search) (hnone : search.loaded = [] ∧ search.newResults = ∅ ∧ search.totalMatches = 0)
      (hremaining : search.remaining = search.files) : Sound toLowerCase search := by
    obtain ⟨hloaded, hresults, htotal⟩ := hnone
    refine ⟨?_, ?_, ?_⟩
    · rw [hloaded, hremaining]
      rfl
    · rw [hresults, hloaded]
      rfl
    · rw [htotal, hloaded]
      rfl
  unfold SearchState.performSearch
  split
  next => exact ⟨h.sound, Or.inr ⟨rfl, rfl, rfl⟩⟩
  next hquery =>
    dsimp only
    split
    next hfiles =>
      refine ⟨h.sound, Or.inr ⟨_, List.mem_cons_self, rfl, ?_⟩⟩
      exact (hnew _ ⟨rfl, rfl, rfl⟩ rfl).shows hfiles (Or.inl (htimely hquery hfiles))
    next =>
      refine ⟨fun search hsearch => ?_, Or.inl ⟨_, List.mem_append_right _ (List.mem_singleton_self _), rfl⟩⟩
      rcases List.mem_append.mp hsearch with hsearch | hsearch
      · exact h.sound search hsearch
      · rw [List.mem_singleton.mp hsearch]
        exact hnew _ ⟨rfl, rfl, rfl⟩ rfl

/-- A file that arrives adds its results to those of its search. -/
theorem Inv.load (h : s.Inv toLowerCase) {i : ℕ} (hsearch : s.searches[i]? = some search)
    {summary : FileDiffSummary} (hsummary : search.remaining.head? = some summary) {diff : Option FileDiff}
    (hend : search.remaining.tail = [] → s.MayEnd toLowerCase search (fileSummaryPath summary) diff) :
    (s.load toLowerCase i search (fileSummaryPath summary) diff).Inv toLowerCase := by
  have hsound := (h.sound search (List.mem_of_getElem? hsearch)).load hsummary diff
  obtain ⟨hnumber, hremaining, hquery, hscope, hloaded⟩ :=
    load_fields search (fileSummaryPath summary) diff
  unfold SearchState.load
  dsimp only
  split
  next hlast =>
    refine ⟨fun other hother => h.sound other (List.mem_of_mem_eraseIdx hother), ?_⟩
    have hmay := hend (hremaining ▸ hlast)
    rw [MayEnd] at hmay
    split at hmay
    next hlatest =>
      refine Or.inr ?_
      show ShowsLatest toLowerCase (SearchState.finish _ _)
      rw [ShowsLatest]
      show match s.latest with | none => _ | some _ => _
      rw [hlatest]
      refine ⟨_, List.mem_cons_self, hnumber, hsound.shows hlast ?_⟩
      rw [hquery, hscope, hloaded]
      exact hmay
    next hlatest =>
      -- the last search is another one, and stays
      obtain ⟨other, hother, hnumber'⟩ := hmay
      refine Or.inl ⟨other, ((mem_iff_eraseIdx hsearch).mp hother).resolve_left ?_, hnumber'⟩
      rintro rfl
      exact hlatest hnumber'
  next =>
    refine ⟨fun other hother => ?_, ?_⟩
    · rcases List.mem_or_eq_of_mem_set hother with hother | rfl
      · exact h.sound other hother
      · exact hsound
    · refine h.shown.imp ?_ fun hshown =>
        hshown.navigate rfl rfl rfl (SameMatches.refl _) (fun hempty => ⟨hempty, rfl⟩) fun _ _ _ => Or.inl rfl
      rintro ⟨other, hother, hlatest⟩
      obtain ⟨hi, -⟩ := List.getElem?_eq_some_iff.mp hsearch
      rcases (mem_iff_eraseIdx hsearch).mp hother with rfl | hother
      · exact ⟨_, List.mem_set hi _, hnumber ▸ hlatest⟩
      · exact ⟨other, (mem_iff_eraseIdx (List.getElem?_set_self hi)).mpr (Or.inr (by rwa [List.eraseIdx_set_eq])), hlatest⟩

/-- Every timely step keeps the invariant. -/
theorem Inv.step {event : SearchEvent} (h : s.Inv toLowerCase) (htimely : s.Timely toLowerCase event)
    (hstep : SearchState.step toLowerCase s event = some t) : t.Inv toLowerCase := by
  cases event with
  | openSearch | setSearchScope scope =>
    cases hstep
    exact h.navigate rfl rfl rfl rfl (SameMatches.refl _) (fun hempty => ⟨hempty, rfl⟩) fun _ _ _ => Or.inl rfl
  | closeSearch =>
    cases hstep
    exact ⟨h.sound, Or.inr ⟨rfl, rfl, rfl⟩⟩
  | performSearch query files =>
    cases hstep
    exact h.performSearch htimely
  | load i diff =>
    obtain ⟨search, hsearch, hload⟩ := Option.bind_eq_some_iff.mp hstep
    obtain ⟨summary, hsummary, rfl⟩ := Option.map_eq_some_iff.mp hload
    exact h.load hsearch hsummary (htimely search hsearch summary hsummary)
  | goToNextResult files | goToPrevResult files =>
    cases hstep
    exact h.goToIndex htimely _
  | expandFileResults filePath =>
    cases hstep
    exact h.navigate rfl rfl rfl rfl (sameMatches_withLimit _ _) (fun hempty => ⟨withLimit_eq_empty _ _ hempty, rfl⟩)
      fun _ _ _ => Or.inl rfl
  | selectFirstResultInFile files filePath =>
    cases hstep
    exact h.selectFirstResultInFile htimely filePath

/-- In a run of timely steps, once all searches have ended, the result of the last search is shown. -/
theorem run_shows_latest {events : List SearchEvent} (hrun : run (step toLowerCase) {} events = some s)
    (htimely : Along (step toLowerCase) (Timely toLowerCase) {} events) (hsettled : s.searches = []) :
    s.ShowsLatest toLowerCase := by
  have hinv : s.Inv toLowerCase := run_invariant_along (fun _ _ _ h htimely hstep => Inv.step h htimely hstep)
    (s := ({} : SearchState)) ⟨fun search hsearch => absurd hsearch List.not_mem_nil, Or.inr ⟨rfl, rfl, rfl⟩⟩ htimely hrun
  refine hinv.shown.resolve_left ?_
  rintro ⟨search, hsearch, -⟩
  rw [hsettled] at hsearch
  exact absurd hsearch List.not_mem_nil

instance (s : SearchState) (files : List FileDiffSummary) : Decidable (s.Fits files) :=
  inferInstanceAs (Decidable (∀ search ∈ s.finished, s.latest = some search.number →
    (s.getFlattenedResults files).length ≤ (s.getFlattenedResults search.files).length))

instance (s : SearchState) (search : Search) (path : Text) (diff : Option FileDiff) :
    Decidable (s.MayEnd toLowerCase search path diff) :=
  inferInstanceAs (Decidable (if s.latest = some search.number then
    s.currentResultIndex = 0 ∨
      ∃ file ∈ search.loaded ++ [(path, diff)], 0 < matchCount toLowerCase search.query search.scope file
    else ∃ other ∈ s.searches, s.latest = some other.number))

instance (s : SearchState) : (event : SearchEvent) → Decidable (s.Timely toLowerCase event)
  | .performSearch query files => inferInstanceAs (Decidable (query ≠ [] → files = [] → s.currentResultIndex = 0))
  | .load i diff => inferInstanceAs (Decidable (∀ search ∈ s.searches[i]?, ∀ summary ∈ search.remaining.head?,
      search.remaining.tail = [] → s.MayEnd toLowerCase search (fileSummaryPath summary) diff))
  | .goToNextResult files => inferInstanceAs (Decidable (s.Fits files))
  | .goToPrevResult files => inferInstanceAs (Decidable (s.Fits files))
  | .selectFirstResultInFile files _ => inferInstanceAs (Decidable (s.Fits files))
  | .openSearch | .closeSearch | .setSearchScope _ | .expandFileResults _ => .isTrue trivial

/-- A file `p`, and a diff with the given line. -/
def fileP : FileDiffSummary := .new none (some ['p'])

def diffOfLine (line : Text) : Option FileDiff := some ⟨none, some ⟨['p'], .text [line]⟩, []⟩

/-- A search for `a` ends after a later search for `b`; a search ends after it was closed; and a search without a match
leaves the second result of the search before it as the current one. -/
theorem run_shows_other_search :
    (∃ s, run (step id) {} [.performSearch [97] [fileP], .performSearch [98] [fileP], .load 1 (diffOfLine ['a']),
        .load 0 (diffOfLine ['a'])] = some s ∧ s.searches = [] ∧ s.query = [98] ∧ s.totalMatches = 1 ∧
        ¬ s.ShowsLatest id) ∧
    (∃ s, run (step id) {} [.performSearch [97] [fileP], .closeSearch, .load 0 (diffOfLine ['a'])] = some s ∧
        s.searches = [] ∧ s.isOpen = false ∧ ¬ s.ShowsLatest id) ∧
    ∃ s, run (step id) {} [.performSearch [97] [fileP], .load 0 (diffOfLine ['a', 'a']), .goToNextResult [fileP],
        .performSearch [98] [fileP], .load 0 (diffOfLine ['a', 'a'])] = some s ∧
        s.searches = [] ∧ s.totalMatches = 0 ∧ s.currentResultIndex = 1 ∧ ¬ s.ShowsLatest id := by
  -- `ShowsLatest` speaks of a finished search, so these are all to look at
  have hother {s : SearchState} {number : ℕ} (hlatest : s.latest = some number)
      (h : ∀ search ∈ s.finished, search.number = number → ¬ (s.totalMatches =
        (search.loaded.map (matchCount id search.query search.scope)).sum ∧ (s.currentResultIndex = 0 ∨
          s.currentResultIndex < (s.getFlattenedResults search.files).length))) : ¬ s.ShowsLatest id := by
    rw [ShowsLatest, hlatest]
    rintro ⟨search, hsearch, hnumber, hshows⟩
    exact h search hsearch hnumber ⟨hshows.totalMatches, hshows.index⟩
  refine ⟨?_, ?_, ?_⟩
  · obtain ⟨s, hrun, hs⟩ := exists_run_of_any
      (show (run (step id) {} [.performSearch [97] [fileP], .performSearch [98] [fileP], .load 1 (diffOfLine ['a']),
          .load 0 (diffOfLine ['a'])]).any (fun s => decide (s.searches = [] ∧ s.query = [98] ∧ s.totalMatches = 1 ∧
            s.latest = some 1 ∧ ∀ search ∈ s.finished, search.number = 1 → ¬ (s.totalMatches =
              (search.loaded.map (matchCount id search.query search.scope)).sum ∧ (s.currentResultIndex = 0 ∨
                s.currentResultIndex < (s.getFlattenedResults search.files).length)))) = true by decide)
    obtain ⟨hsettled, hquery, htotal, hlatest, h⟩ := of_decide_eq_true hs
    exact ⟨s, hrun, hsettled, hquery, htotal, hother hlatest h⟩
  · obtain ⟨s, hrun, hs⟩ := exists_run_of_any
      (show (run (step id) {} [.performSearch [97] [fileP], .closeSearch, .load 0 (diffOfLine ['a'])]).any
        (fun s => decide (s.searches = [] ∧ s.isOpen = false ∧ s.latest = none ∧ s.totalMatches = 1)) = true
        by decide)
    obtain ⟨hsettled, hclosed, hlatest, htotal⟩ := of_decide_eq_true hs
    refine ⟨s, hrun, hsettled, hclosed, ?_⟩
    rw [ShowsLatest, hlatest]
    intro h
    rw [htotal] at h
    exact absurd h.2.1 Nat.one_ne_zero
  · obtain ⟨s, hrun, hs⟩ := exists_run_of_any
      (show (run (step id) {} [.performSearch [97] [fileP], .load 0 (diffOfLine ['a', 'a']), .goToNextResult [fileP],
          .performSearch [98] [fileP], .load 0 (diffOfLine ['a', 'a'])]).any (fun s => decide (s.searches = [] ∧
            s.totalMatches = 0 ∧ s.currentResultIndex = 1 ∧ s.latest = some 1 ∧
            ∀ search ∈ s.finished, search.number = 1 → ¬ (s.totalMatches =
              (search.loaded.map (matchCount id search.query search.scope)).sum ∧ (s.currentResultIndex = 0 ∨
                s.currentResultIndex < (s.getFlattenedResults search.files).length)))) = true by decide)
    obtain ⟨hsettled, htotal, hindex, hlatest, h⟩ := of_decide_eq_true hs
    exact ⟨s, hrun, hsettled, htotal, hindex, hother hlatest h⟩

/-- A search that is overtaken, and navigation in the results of the later one. -/
theorem run_shows_latest_overtaken :
    ∃ s, run (step id) {} [.performSearch [97] [fileP], .performSearch [98] [fileP], .load 0 (diffOfLine ['b', 'b']),
        .load 0 (diffOfLine ['b', 'b']), .goToNextResult [fileP]] = some s ∧
      s.totalMatches = 2 ∧ s.currentResultIndex = 1 ∧ s.ShowsLatest id := by
  obtain ⟨s, hrun, hs⟩ := exists_run_of_any
    (show (run (step id) {} [.performSearch [97] [fileP], .performSearch [98] [fileP], .load 0 (diffOfLine ['b', 'b']),
        .load 0 (diffOfLine ['b', 'b']), .goToNextResult [fileP]]).any
      (fun s => decide (s.searches = [] ∧ s.totalMatches = 2 ∧ s.currentResultIndex = 1)) = true by decide)
  obtain ⟨hsettled, htotal, hindex⟩ := of_decide_eq_true hs
  exact ⟨s, hrun, htotal, hindex, run_shows_latest hrun (by decide) hsettled⟩

end SearchState

end Builderbot.DiffViewer
