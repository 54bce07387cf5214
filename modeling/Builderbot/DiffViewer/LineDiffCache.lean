import Builderbot.DiffViewer.InlineDiff
import Builderbot.Git.Types
import Builderbot.Lib.MemoCache

/-!
# The cache in front of the line diff

`createLineDiffCache` of `inlineDiff.ts` keeps up to a hundred results of `computeLineDiff` under a
key that joins the lines of each side with line feeds and the two sides with a NUL character. Two
argument lists share a key when they differ only by an empty list against a list with one empty line,
or when a NUL character inside a line lets the border between the sides move
(`makeCacheKey_eq_iff`).

The cache is transparent in every sequence of calls without such a pair
(`gets_eq_map_computeLineDiff`), and so are the two helpers of `diffViewerHelpers.ts` that paint the
lines (`asks_eq_map_answer`).
-/

namespace Builderbot.DiffViewer

/-- The arguments of a call: the lines of the before side and those of the after side. -/
abbrev LineArgs := List JsString × List JsString

/-- The code unit of a line feed. -/
def lineFeed : UInt16 := 10

/-- The code unit of the NUL character. -/
def nul : UInt16 := 0

/-- `lines.join('\n')`. -/
def joinLines (lines : List JsString) : JsString := [lineFeed].intercalate lines

/-- `makeCacheKey`. -/
def makeCacheKey (args : LineArgs) : JsString := joinLines args.1 ++ nul :: joinLines args.2

/-- `MAX_CACHE_SIZE`. -/
def MAX_CACHE_SIZE : ℕ := 100

/-- The map of `createLineDiffCache`, in insertion order. -/
abbrev LineDiffCache := List (JsString × LineDiffResult)

section Cache

variable (isLetterOrNumber : ℕ → Bool)

/-- `computeLineDiff` on the arguments of a call. -/
def lineDiff (args : LineArgs) : LineDiffResult := computeLineDiff isLetterOrNumber args.1 args.2

/-- `get` of `createLineDiffCache`. -/
def LineDiffCache.get (cache : LineDiffCache) (args : LineArgs) : LineDiffResult × LineDiffCache :=
  MemoCache.get makeCacheKey (lineDiff isLetterOrNumber) MAX_CACHE_SIZE cache args

/-- The answers of a fresh cache to a sequence of calls. -/
def createLineDiffCacheGets (calls : List LineArgs) : List LineDiffResult :=
  MemoCache.gets makeCacheKey (lineDiff isLetterOrNumber) MAX_CACHE_SIZE [] calls

end Cache

/-! ## When two calls share a key -/

/-- No line holds a line feed. -/
def NewlineFree (lines : List JsString) : Prop := ∀ l ∈ lines, lineFeed ∉ l

instance (lines : List JsString) : Decidable (NewlineFree lines) :=
  inferInstanceAs (Decidable (∀ l ∈ lines, lineFeed ∉ l))

/-- Two lists of lines that `join` does not tell apart: no line, and one empty line. -/
def SameText (lines lines' : List JsString) : Prop :=
  lines = lines' ∨ lines = [] ∧ lines' = [[]] ∨ lines = [[]] ∧ lines' = []

/-- The text of the two sides is that of `args` with the border moved to a later NUL character. -/
def BorderMoved (args args' : LineArgs) : Prop :=
  ∃ middle, joinLines args'.1 = joinLines args.1 ++ nul :: middle ∧
    joinLines args.2 = middle ++ nul :: joinLines args'.2

/-- Two different calls that the key does not tell apart. -/
def Confusable (args args' : LineArgs) : Prop :=
  args ≠ args' ∧ (SameText args.1 args'.1 ∧ SameText args.2 args'.2 ∨ BorderMoved args args' ∨
    BorderMoved args' args)

/-- Joined lines are read back by splitting at line feeds. -/
theorem splitOn_joinLines {lines : List JsString} (h : NewlineFree lines) (hne : lines ≠ []) :
    (joinLines lines).splitOn lineFeed = lines :=
  List.splitOn_intercalate lineFeed h hne

theorem eq_of_joinLines_eq_nil {lines : List JsString} (h : NewlineFree lines) (hne : lines ≠ [])
    (hjoin : joinLines lines = []) : lines = [[]] := by
  rw [← splitOn_joinLines h hne, hjoin]
  rfl

theorem joinLines_eq_iff {lines lines' : List JsString} (h : NewlineFree lines)
    (h' : NewlineFree lines') : joinLines lines = joinLines lines' ↔ SameText lines lines' := by
  constructor
  · intro heq
    by_cases hne : lines = []
    · by_cases hne' : lines' = []
      · exact .inl (hne.trans hne'.symm)
      · rw [hne] at heq
        exact .inr (.inl ⟨hne, eq_of_joinLines_eq_nil h' hne' heq.symm⟩)
    · by_cases hne' : lines' = []
      · rw [hne'] at heq
        exact .inr (.inr ⟨eq_of_joinLines_eq_nil h hne heq, hne'⟩)
      · rw [← splitOn_joinLines h hne, ← splitOn_joinLines h' hne', heq]
        exact .inl rfl
  · rintro (rfl | ⟨rfl, rfl⟩ | ⟨rfl, rfl⟩)
    · rfl
    · rfl
    · rfl

/-- The calls that share a key. -/
theorem makeCacheKey_eq_iff {args args' : LineArgs}
    (h : NewlineFree args.1 ∧ NewlineFree args.2) (h' : NewlineFree args'.1 ∧ NewlineFree args'.2) :
    makeCacheKey args = makeCacheKey args' ↔
      SameText args.1 args'.1 ∧ SameText args.2 args'.2 ∨ BorderMoved args args' ∨
        BorderMoved args' args := by
  rw [← joinLines_eq_iff h.1 h'.1, ← joinLines_eq_iff h.2 h'.2]
  constructor
  · intro heq
    -- one border lies at or after the other, and `m` is the text between them
    rcases List.append_eq_append_iff.mp heq with ⟨m, hbefore, hafter⟩ | ⟨m, hbefore, hafter⟩
    · cases m with
      | nil =>
        simp only [List.append_nil, List.nil_append, List.cons.injEq, true_and] at hbefore hafter
        exact .inl ⟨hbefore.symm, hafter⟩
      | cons c m =>
        simp only [List.cons_append, List.cons.injEq] at hafter
        exact .inr (.inl ⟨m, by rw [hbefore, hafter.1], hafter.2⟩)
    · cases m with
      | nil =>
        simp only [List.append_nil, List.nil_append, List.cons.injEq, true_and] at hbefore hafter
        exact .inl ⟨hbefore, hafter.symm⟩
      | cons c m =>
        simp only [List.cons_append, List.cons.injEq] at hafter
        exact .inr (.inr ⟨m, by rw [hbefore, hafter.1], hafter.2⟩)
  · rintro (⟨hbefore, hafter⟩ | ⟨m, hbefore, hafter⟩ | ⟨m, hbefore, hafter⟩)
    · rw [makeCacheKey, makeCacheKey, hbefore, hafter]
    · simp [makeCacheKey, hbefore, hafter]
    · simp [makeCacheKey, hbefore, hafter]

theorem Confusable.makeCacheKey_eq {args args' : LineArgs} (h : Confusable args args')
    (hlines : NewlineFree args.1 ∧ NewlineFree args.2)
    (hlines' : NewlineFree args'.1 ∧ NewlineFree args'.2) :
    makeCacheKey args = makeCacheKey args' :=
  (makeCacheKey_eq_iff hlines hlines').mpr h.2

/-! ## Transparency -/

section Transparent

variable (isLetterOrNumber : ℕ → Bool)

/-- In every sequence of calls without two confusable ones, each answer of the cache is the line diff
of its arguments. -/
theorem gets_eq_map_computeLineDiff {calls : List LineArgs}
    (hlines : ∀ args ∈ calls, NewlineFree args.1 ∧ NewlineFree args.2)
    (hcalls : ∀ args ∈ calls, ∀ args' ∈ calls, ¬ Confusable args args') :
    createLineDiffCacheGets isLetterOrNumber calls =
      calls.map fun args => computeLineDiff isLetterOrNumber args.1 args.2 := by
  refine MemoCache.gets_eq_map (MemoCache.computed_nil []) ?_
  intro args hargs args' hargs' hkey
  have hshared := (makeCacheKey_eq_iff (hlines args hargs) (hlines args' hargs')).mp hkey
  by_cases heq : args = args'
  · rw [heq]
  · exact absurd ⟨heq, hshared⟩ (hcalls args hargs args' hargs')

/-- The letters and digits of ASCII, which the samples use. -/
def asciiLetterOrNumber (c : ℕ) : Bool := (Char.ofNat c).isAlphanum

/-- Three calls, one of them repeated, with an empty list, an empty line and a NUL character. -/
theorem gets_eq_map_computeLineDiff_sample :
    createLineDiffCacheGets asciiLetterOrNumber [([[]], [[98, 0]]), ([], [[97]]), ([[]], [[98, 0]])] =
      [computeLineDiff asciiLetterOrNumber [[]] [[98, 0]], computeLineDiff asciiLetterOrNumber [] [[97]],
        computeLineDiff asciiLetterOrNumber [[]] [[98, 0]]] := by
  have hlines : ∀ args ∈ [([[]], [[98, 0]]), ([], [[97]]), ([[]], [[98, 0]])],
      NewlineFree args.1 ∧ NewlineFree args.2 := by
    decide
  refine gets_eq_map_computeLineDiff asciiLetterOrNumber hlines ?_
  intro args hargs args' hargs' hconf
  have hkey := hconf.makeCacheKey_eq (hlines args hargs) (hlines args' hargs')
  have hdistinct : ∀ args ∈ [([[]], [[98, 0]]), ([], [[97]]), ([[]], [[98, 0]])],
      ∀ args' ∈ [([[]], [[98, 0]]), ([], [[97]]), ([[]], [[98, 0]])],
        makeCacheKey args = makeCacheKey args' → args = args' := by
    decide
  exact hconf.1 (hdistinct args hargs args' hargs' hkey)

/-- A fresh cache answers two confusable calls correctly only if they have the same line diff. -/
theorem gets_confusable_iff {args args' : LineArgs}
    (hlines : NewlineFree args.1 ∧ NewlineFree args.2)
    (hlines' : NewlineFree args'.1 ∧ NewlineFree args'.2) (hconf : Confusable args args') :
    createLineDiffCacheGets isLetterOrNumber [args, args'] =
        [lineDiff isLetterOrNumber args, lineDiff isLetterOrNumber args'] ↔
      lineDiff isLetterOrNumber args = lineDiff isLetterOrNumber args' := by
  have hpair : createLineDiffCacheGets isLetterOrNumber [args, args'] =
      [lineDiff isLetterOrNumber args, lineDiff isLetterOrNumber args] :=
    MemoCache.gets_pair (hconf.makeCacheKey_eq hlines hlines')
  rw [hpair]
  simp

/-- An empty list and a list with one empty line never have the same line diff. -/
theorem lineDiff_ne_of_sameText {args args' : LineArgs} (hne : args ≠ args')
    (hbefore : SameText args.1 args'.1) (hafter : SameText args.2 args'.2) :
    lineDiff isLetterOrNumber args ≠ lineDiff isLetterOrNumber args' := by
  have hlength : ∀ {lines lines' : List JsString}, SameText lines lines' →
      lines.length = lines'.length → lines = lines' := by
    rintro lines lines' (rfl | ⟨rfl, rfl⟩ | ⟨rfl, rfl⟩) hlen
    · rfl
    · exact absurd hlen (by decide)
    · exact absurd hlen (by decide)
  -- a line diff has one class for each line of its arguments
  intro hdiff
  obtain ⟨hb, ha⟩ := length_computeLineDiff isLetterOrNumber args.1 args.2
  obtain ⟨hb', ha'⟩ := length_computeLineDiff isLetterOrNumber args'.1 args'.2
  rw [lineDiff, lineDiff] at hdiff
  rw [hdiff] at hb ha
  exact hne (Prod.ext (hlength hbefore (hb.symm.trans hb')) (hlength hafter (ha.symm.trans ha')))

/-- A region with only added lines, then one where an empty line is removed: the cache takes the
second for the first and has no class for the removed line. -/
theorem cached_empty_line_lost :
    createLineDiffCacheGets asciiLetterOrNumber [([], [[97]]), ([[]], [[97]])] ≠
      [computeLineDiff asciiLetterOrNumber [] [[97]],
        computeLineDiff asciiLetterOrNumber [[]] [[97]]] := by
  have hbefore : SameText [] [[]] := .inr (.inl ⟨rfl, rfl⟩)
  have hafter : SameText [[97]] [[97]] := .inl rfl
  have hne : (([], [[97]]) : LineArgs) ≠ ([[]], [[97]]) := by decide
  intro h
  exact lineDiff_ne_of_sameText asciiLetterOrNumber hne hbefore hafter
    ((gets_confusable_iff asciiLetterOrNumber (by decide) (by decide)
      ⟨hne, .inl ⟨hbefore, hafter⟩⟩).mp h)

end Transparent

/-! ## The helpers that paint lines -/

/-- `PaneSide`. -/
inductive PaneSide where
  | before
  | after
deriving DecidableEq

/-- The arguments that `getLineClass` and `getCharHighlights` share, apart from the cache. -/
structure LineQuery where
  side : PaneSide
  lineIndex : ℕ
  beforeLineToAlignment : ℕ → Option ℕ
  afterLineToAlignment : ℕ → Option ℕ
  changedAlignments : List Git.Alignment
  beforeLines : List JsString
  afterLines : List JsString

/-- `lines.slice(span.start, span.end)`. -/
def slice (lines : List JsString) (span : Git.Span) : List JsString :=
  (lines.drop span.start).take (span.stop - span.start)

namespace LineQuery

variable (q : LineQuery)

/-- The changed alignment the line lies in. The maps are built from the list of alignments, so an
index they hold is one of the list. -/
def alignment : Option Git.Alignment := do
  let alignIdx ← match q.side with
    | .before => q.beforeLineToAlignment q.lineIndex
    | .after => q.afterLineToAlignment q.lineIndex
  q.changedAlignments[alignIdx]?

/-- The lines of both sides of an alignment. -/
def args (al : Git.Alignment) : LineArgs := (slice q.beforeLines al.before, slice q.afterLines al.after)

/-- The position of the line in the alignment; `none` is a negative one. -/
def localIdx (al : Git.Alignment) : Option ℕ :=
  let start := match q.side with
    | .before => al.before.start
    | .after => al.after.start
  if start ≤ q.lineIndex then some (q.lineIndex - start) else none

/-- The class of the line in a line diff. -/
def lineClass (al : Git.Alignment) (result : LineDiffResult) :
    Option (BeforeLineClass ⊕ AfterLineClass) := do
  let i ← q.localIdx al
  match q.side with
  | .before => result.beforeLines[i]?.map .inl
  | .after => result.afterLines[i]?.map .inr

/-- The highlights of the line in a line diff. -/
def charHighlights (al : Git.Alignment) (result : LineDiffResult) : Option (List CharHighlight) := do
  let i ← q.localIdx al
  match q.side with
  | .before =>
    (result.modifiedPairs.find? fun p => p.beforeLineIndex = i).map ModifiedPair.beforeHighlights
  | .after =>
    (result.modifiedPairs.find? fun p => p.afterLineIndex = i).map ModifiedPair.afterHighlights

end LineQuery

section Paint

variable (isLetterOrNumber : ℕ → Bool)

/-- The shared shape of the two helpers: find the alignment, ask the cache for its line diff, and
select the answer for the line. -/
def askLine {γ : Type*} (select : Git.Alignment → LineDiffResult → Option γ) (q : LineQuery)
    (cache : LineDiffCache) : Option γ × LineDiffCache :=
  match q.alignment with
  | none => (none, cache)
  | some al =>
    let (result, cache) := cache.get isLetterOrNumber (q.args al)
    (select al result, cache)

/-- `getLineClass`. -/
def getLineClass (q : LineQuery) (cache : LineDiffCache) :
    Option (BeforeLineClass ⊕ AfterLineClass) × LineDiffCache :=
  askLine isLetterOrNumber q.lineClass q cache

/-- `getCharHighlights`. -/
def getCharHighlights (q : LineQuery) (cache : LineDiffCache) :
    Option (List CharHighlight) × LineDiffCache :=
  askLine isLetterOrNumber q.charHighlights q cache

/-- One call of a helper while the lines of a diff are painted. -/
inductive LineRequest where
  | lineClass (q : LineQuery)
  | charHighlights (q : LineQuery)

/-- What a helper answers. -/
inductive LineAnswer where
  | lineClass (c : Option (BeforeLineClass ⊕ AfterLineClass))
  | charHighlights (h : Option (List CharHighlight))

/-- The line a request is about. -/
def LineRequest.query : LineRequest → LineQuery
  | .lineClass q => q
  | .charHighlights q => q

/-- The regions whose line diff a sequence of requests needs. -/
def regions (requests : List LineRequest) : List LineArgs :=
  requests.flatMap fun r => (r.query.alignment.map r.query.args).toList

/-- Serve a request with a shared cache. -/
def LineRequest.ask (cache : LineDiffCache) : LineRequest → LineAnswer × LineDiffCache
  | .lineClass q =>
    let (c, cache) := getLineClass isLetterOrNumber q cache
    (.lineClass c, cache)
  | .charHighlights q =>
    let (h, cache) := getCharHighlights isLetterOrNumber q cache
    (.charHighlights h, cache)

/-- The answer to a request from the line diff of its own region. -/
def LineRequest.answer : LineRequest → LineAnswer
  | .lineClass q =>
    .lineClass (q.alignment.bind fun al => q.lineClass al (lineDiff isLetterOrNumber (q.args al)))
  | .charHighlights q =>
    .charHighlights
      (q.alignment.bind fun al => q.charHighlights al (lineDiff isLetterOrNumber (q.args al)))

/-- The answers to a sequence of requests with one cache. -/
def asks (cache : LineDiffCache) : List LineRequest → List LineAnswer
  | [] => []
  | r :: rs => (r.ask isLetterOrNumber cache).1 :: asks (r.ask isLetterOrNumber cache).2 rs

variable {isLetterOrNumber}

/-- The calls made so far and the next one can be told apart, so the cache is right. -/
theorem LineDiffCache.fst_get {seen : List LineArgs} {cache : LineDiffCache} {args : LineArgs}
    (hcache : MemoCache.Computed makeCacheKey (lineDiff isLetterOrNumber) seen cache)
    (hlines : ∀ a ∈ args :: seen, NewlineFree a.1 ∧ NewlineFree a.2)
    (hconf : ∀ a ∈ args :: seen, ¬ Confusable a args) :
    (cache.get isLetterOrNumber args).1 = lineDiff isLetterOrNumber args := by
  obtain ⟨a, ha, hkey, hget⟩ := hcache.fst_get MAX_CACHE_SIZE args
  have hshared := (makeCacheKey_eq_iff (hlines a ha) (hlines args List.mem_cons_self)).mp hkey
  by_cases heq : a = args
  · rw [heq] at hget
    exact hget
  · exact absurd ⟨heq, hshared⟩ (hconf a ha)

/-- One call of a helper, after calls for the regions in `seen`. -/
theorem askLine_spec {γ : Type*} (select : Git.Alignment → LineDiffResult → Option γ) {q : LineQuery}
    {seen : List LineArgs} {cache : LineDiffCache}
    (hcache : MemoCache.Computed makeCacheKey (lineDiff isLetterOrNumber) seen cache)
    (hlines : ∀ a ∈ (q.alignment.map q.args).toList ++ seen, NewlineFree a.1 ∧ NewlineFree a.2)
    (hconf : ∀ a ∈ (q.alignment.map q.args).toList ++ seen,
      ∀ a' ∈ (q.alignment.map q.args).toList ++ seen, ¬ Confusable a a') :
    (askLine isLetterOrNumber select q cache).1 =
        (q.alignment.bind fun al => select al (lineDiff isLetterOrNumber (q.args al))) ∧
      MemoCache.Computed makeCacheKey (lineDiff isLetterOrNumber)
        ((q.alignment.map q.args).toList ++ seen) (askLine isLetterOrNumber select q cache).2 := by
  cases hal : q.alignment with
  | none =>
    simp only [askLine, hal]
    exact ⟨rfl, hcache⟩
  | some al =>
    rw [hal] at hlines hconf
    have hget := LineDiffCache.fst_get hcache hlines
      fun a ha => hconf a ha (q.args al) List.mem_cons_self
    simp only [askLine, hal, hget]
    exact ⟨rfl, hcache.get (q.args al)⟩

/-- One request, after requests for the regions in `seen`. -/
theorem LineRequest.ask_spec {seen : List LineArgs} {cache : LineDiffCache} (r : LineRequest)
    (hcache : MemoCache.Computed makeCacheKey (lineDiff isLetterOrNumber) seen cache)
    (hlines : ∀ a ∈ regions [r] ++ seen, NewlineFree a.1 ∧ NewlineFree a.2)
    (hconf : ∀ a ∈ regions [r] ++ seen, ∀ a' ∈ regions [r] ++ seen, ¬ Confusable a a') :
    (r.ask isLetterOrNumber cache).1 = r.answer isLetterOrNumber ∧
      MemoCache.Computed makeCacheKey (lineDiff isLetterOrNumber) (regions [r] ++ seen)
        (r.ask isLetterOrNumber cache).2 := by
  have hregions : regions [r] = (r.query.alignment.map r.query.args).toList :=
    List.flatMap_singleton _ _
  rw [hregions] at hlines hconf ⊢
  cases r with
  | lineClass q =>
    obtain ⟨hanswer, hnext⟩ := askLine_spec q.lineClass hcache hlines hconf
    exact ⟨congrArg LineAnswer.lineClass hanswer, hnext⟩
  | charHighlights q =>
    obtain ⟨hanswer, hnext⟩ := askLine_spec q.charHighlights hcache hlines hconf
    exact ⟨congrArg LineAnswer.charHighlights hanswer, hnext⟩

/-- The run behind `asks_eq_map_answer`, after requests for the regions in `seen`. -/
theorem asks_eq_map_of_computed {requests : List LineRequest} {seen : List LineArgs}
    {cache : LineDiffCache}
    (hcache : MemoCache.Computed makeCacheKey (lineDiff isLetterOrNumber) seen cache)
    (hlines : ∀ a ∈ regions requests ++ seen, NewlineFree a.1 ∧ NewlineFree a.2)
    (hconf : ∀ a ∈ regions requests ++ seen, ∀ a' ∈ regions requests ++ seen, ¬ Confusable a a') :
    asks isLetterOrNumber cache requests = requests.map (LineRequest.answer isLetterOrNumber) := by
  induction requests generalizing seen cache with
  | nil => rfl
  | cons r rs ih =>
    have hcons : regions (r :: rs) = regions [r] ++ regions rs := by
      simp [regions]
    have hhead : ∀ a ∈ regions [r] ++ seen, a ∈ regions (r :: rs) ++ seen := by
      intro a ha
      rw [hcons]
      simp only [List.mem_append] at ha ⊢
      tauto
    have htail : ∀ a ∈ regions rs ++ (regions [r] ++ seen), a ∈ regions (r :: rs) ++ seen := by
      intro a ha
      rw [hcons]
      simp only [List.mem_append] at ha ⊢
      tauto
    obtain ⟨hanswer, hnext⟩ := r.ask_spec hcache (fun a ha => hlines a (hhead a ha))
      fun a ha a' ha' => hconf a (hhead a ha) a' (hhead a' ha')
    rw [asks, List.map_cons, hanswer, ih hnext (fun a ha => hlines a (htail a ha))
      fun a ha a' ha' => hconf a (htail a ha) a' (htail a' ha')]

/-- In every sequence of requests without two confusable regions, each line is painted from the line
diff of its own region. -/
theorem asks_eq_map_answer {requests : List LineRequest}
    (hlines : ∀ a ∈ regions requests, NewlineFree a.1 ∧ NewlineFree a.2)
    (hconf : ∀ a ∈ regions requests, ∀ a' ∈ regions requests, ¬ Confusable a a') :
    asks isLetterOrNumber [] requests = requests.map (LineRequest.answer isLetterOrNumber) := by
  refine asks_eq_map_of_computed (MemoCache.computed_nil []) ?_ ?_
  · rw [List.append_nil]
    exact hlines
  · rw [List.append_nil]
    exact hconf

/-- A changed line. -/
def changedLine : LineQuery :=
  ⟨.after, 0, fun _ => none, fun _ => some 0, [⟨⟨0, 1⟩, ⟨0, 1⟩, true⟩], [[97]], [[98]]⟩

/-- The second request for a region finds it in the cache. -/
theorem asks_eq_map_answer_again :
    asks asciiLetterOrNumber [] [.lineClass changedLine, .charHighlights changedLine] =
      [.lineClass changedLine, .charHighlights changedLine].map
        (LineRequest.answer asciiLetterOrNumber) := by
  have hregions : ∀ a ∈ regions [.lineClass changedLine, .charHighlights changedLine],
      a = ([[97]], [[98]]) := by
    simp [regions, changedLine, LineRequest.query, LineQuery.alignment, LineQuery.args, slice]
  refine asks_eq_map_answer (fun a ha => ?_) fun a ha a' ha' hconf =>
    hconf.1 ((hregions a ha).trans (hregions a' ha').symm)
  rw [hregions a ha]
  decide

end Paint

end Builderbot.DiffViewer
