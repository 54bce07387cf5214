import Builderbot.DiffViewer.InlineDiff
import Builderbot.Lib.KeyedList
import Mathlib.Data.List.Induction

/-!
# The files of a diff with their comments

`buildFileEntries` of `packages/diff-viewer/src/lib/utils/diffModalHelpers.ts`. The comments of a file are looked for in
the group of its last name only. A `Map` is the list of its entries, and a `Set` the list of its elements, in order of
insertion.
-/

namespace Builderbot.DiffViewer.Sidebar

open KeyedList (upsert)

inductive CommentType where
  | information
  | suggestion
  | warning
  | issue
deriving DecidableEq, Repr

/-- What this module reads of a comment. -/
structure FileComment where
  path : JsString
  commentType : Option CommentType
deriving DecidableEq, Repr

structure FileDiffSummary where
  before : Option JsString
  after : Option JsString
  addedLines : Option ℕ
  deletedLines : Option ℕ
deriving DecidableEq, Repr

inductive FileStatus where
  | added
  | deleted
  | modified
  | renamed
deriving DecidableEq, Repr

structure FileEntry where
  path : JsString
  status : FileStatus
  addedLines : Option ℕ
  deletedLines : Option ℕ
  isReviewed : Bool
  commentCount : ℕ
  commentTypes : List CommentType
deriving DecidableEq, Repr

def slash : UInt16 := 47

/-- Two paths are the same, or one is the other below some directories. -/
def pathsMatch (a b : JsString) : Bool :=
  if a = b then true
  else if b.isSuffixOf a then a[a.length - b.length - 1]? = some slash
  else if a.isSuffixOf b then b[b.length - a.length - 1]? = some slash
  else false

def fileSummaryPath (summary : FileDiffSummary) : JsString :=
  (summary.after.or summary.before).getD []

/-- A missing path, or an empty one. -/
def falsy (path : Option JsString) : Bool :=
  path.all List.isEmpty

def fileStatus (summary : FileDiffSummary) : FileStatus :=
  if falsy summary.before then .added
  else if falsy summary.after then .deleted
  else if summary.before ≠ summary.after then .renamed
  else .modified

structure CommentAgg where
  count : ℕ
  types : List CommentType

def CommentAgg.empty : CommentAgg := ⟨0, []⟩

/-- `Set.prototype.add`. -/
def addType (types : List CommentType) (t : CommentType) : List CommentType :=
  if t ∈ types then types else types ++ [t]

def CommentAgg.add (agg : CommentAgg) (commentType : Option CommentType) : CommentAgg where
  count := agg.count + 1
  types := commentType.elim agg.types (addType agg.types)

def lastIndexOf (c : UInt16) (s : JsString) : Option ℕ :=
  (s.reverse.idxOf? c).map fun i => s.length - 1 - i

def basename (path : JsString) : JsString :=
  match lastIndexOf slash path with
  | none => path
  | some idx => path.drop (idx + 1)

abbrev PathGroup := List (JsString × CommentAgg)

def addToGroup (comment : FileComment) (byPath : PathGroup) : PathGroup :=
  upsert (fun e => e.1 = comment.path) (comment.path, .empty) (fun e => (e.1, e.2.add comment.commentType)) byPath

def groupCommentsByBasename (comments : List FileComment) : List (JsString × PathGroup) :=
  comments.foldl (fun groups comment => upsert (fun g => g.1 = basename comment.path) (basename comment.path, [])
    (fun g => (g.1, addToGroup comment g.2)) groups) []

def candidates (groups : List (JsString × PathGroup)) (base : JsString) : PathGroup :=
  ((groups.find? fun g => g.1 = base).map Prod.snd).getD []

/-- The loop over the candidates of a file: the count and the types so far. -/
def countComments (path : JsString) (group : PathGroup) : ℕ × List CommentType :=
  group.foldl (fun found e =>
    if pathsMatch e.1 path then (found.1 + e.2.count, e.2.types.foldl addType found.2) else found) (0, [])

def buildFileEntry (reviewedPaths : List JsString) (groups : List (JsString × PathGroup)) (summary : FileDiffSummary) :
    FileEntry :=
  let path := fileSummaryPath summary
  let found := countComments path (candidates groups (basename path))
  { path, status := fileStatus summary, addedLines := summary.addedLines, deletedLines := summary.deletedLines,
    isReviewed := path ∈ reviewedPaths, commentCount := found.1, commentTypes := found.2 }

def buildFileEntries (files : List FileDiffSummary) (reviewedPaths : List JsString) (comments : List FileComment) :
    List FileEntry :=
  files.map (buildFileEntry reviewedPaths (groupCommentsByBasename comments))

/-! ## The last name of a path -/

variable {s : JsString}

theorem lastIndexOf_append_cons {c : UInt16} {t : JsString} (ht : c ∉ t) :
    lastIndexOf c (s ++ c :: t) = some s.length := by
  have hfirst : (s ++ c :: t).reverse.idxOf? c = some t.length := by
    rw [List.reverse_append, List.reverse_cons, List.append_assoc, List.singleton_append, List.idxOf?_eq_some_iff]
    refine ⟨by simp, by simp, fun j hj => ?_⟩
    rw [List.getElem_append_left (by simpa using hj)]
    intro heq
    exact ht (List.mem_reverse.mp (heq ▸ List.getElem_mem _))
  rw [lastIndexOf, hfirst, Option.map_some, List.length_append, List.length_cons]
  congr 1
  omega

theorem lastIndexOf_of_not_mem {c : UInt16} (hs : c ∉ s) : lastIndexOf c s = none := by
  rw [lastIndexOf, List.idxOf?_eq_none_iff.mpr fun h => hs (List.mem_reverse.mp h), Option.map_none]

theorem basename_append_cons {t : JsString} (ht : slash ∉ t) : basename (s ++ slash :: t) = t := by
  rw [basename, lastIndexOf_append_cons ht]
  show (s ++ slash :: t).drop (s.length + 1) = t
  rw [List.drop_length_add_append, List.drop_one, List.tail_cons]

theorem basename_of_not_mem (hs : slash ∉ s) : basename s = s := by
  rw [basename, lastIndexOf_of_not_mem hs]

variable (path : JsString)

/-- A path is its directories and its last name, or the last name alone. -/
theorem eq_append_basename :
    slash ∉ basename path ∧ ((∃ s, path = s ++ slash :: basename path) ∨ path = basename path) := by
  by_cases hmem : slash ∈ path
  · obtain ⟨r, l, heq, hr⟩ := List.eq_append_cons_of_mem (List.mem_reverse.mpr hmem)
    have hpath : path = l.reverse ++ slash :: r.reverse := by
      rw [← List.reverse_reverse path, heq, List.reverse_append, List.reverse_cons, List.append_assoc,
        List.singleton_append]
    have hlast : slash ∉ r.reverse := fun h => hr (List.mem_reverse.mp h)
    have hbase : basename path = r.reverse := by
      rw [hpath, basename_append_cons hlast]
    rw [hbase]
    exact ⟨hlast, .inl ⟨_, hpath⟩⟩
  · rw [basename_of_not_mem hmem]
    exact ⟨hmem, .inr rfl⟩

/-- Directories in front do not change the last name. -/
theorem basename_append_slash (s b : JsString) : basename (s ++ slash :: b) = basename b := by
  obtain ⟨hlast, ⟨d, hb⟩ | hb⟩ := eq_append_basename b
  · have hpath : s ++ slash :: b = (s ++ slash :: d) ++ slash :: basename b := by
      conv_lhs => rw [hb]
      rw [List.append_assoc, List.cons_append]
    rw [hpath, basename_append_cons hlast]
  · rw [← hb] at hlast
    rw [basename_append_cons hlast, ← hb]

theorem eq_append_of_suffix {a b : JsString} (hsuffix : b.isSuffixOf a = true)
    (hslash : a[a.length - b.length - 1]? = some slash) (hne : a ≠ b) : ∃ s, a = s ++ slash :: b := by
  obtain ⟨l, rfl⟩ := List.isSuffixOf_iff_suffix.mp hsuffix
  rcases l.eq_nil_or_concat with rfl | ⟨s, c, rfl⟩
  · exact absurd (List.nil_append b) hne
  · rw [List.concat_eq_append, List.append_assoc, List.singleton_append] at hslash ⊢
    have hindex : (s ++ c :: b).length - b.length - 1 = s.length := by
      rw [List.length_append, List.length_cons]
      omega
    rw [hindex, List.getElem?_append_right (Nat.le_refl _), Nat.sub_self, List.getElem?_cons_zero] at hslash
    exact ⟨s, by rw [Option.some.inj hslash]⟩

/-- Paths that match have one last name. -/
theorem basename_eq_of_pathsMatch {a b : JsString} (h : pathsMatch a b = true) : basename a = basename b := by
  rw [pathsMatch] at h
  split_ifs at h with heq hab hba
  · rw [heq]
  · obtain ⟨s, rfl⟩ := eq_append_of_suffix hab (of_decide_eq_true h) heq
    exact basename_append_slash s b
  · obtain ⟨s, rfl⟩ := eq_append_of_suffix hba (of_decide_eq_true h) (Ne.symm heq)
    exact (basename_append_slash s a).symm

/-! ## What a group counts -/

/-- How often the comments of a group match a path. -/
def groupCount (path : JsString) (group : PathGroup) : ℕ :=
  (group.map fun e => if pathsMatch e.1 path then e.2.count else 0).sum

def HasType (path : JsString) (t : CommentType) (group : PathGroup) : Prop :=
  ∃ e ∈ group, pathsMatch e.1 path = true ∧ t ∈ e.2.types

variable {types : List CommentType} {t : CommentType}

theorem mem_addType {t' : CommentType} : t' ∈ addType types t ↔ t' ∈ types ∨ t' = t := by
  rw [addType]
  split_ifs with hmem
  · exact ⟨.inl, fun h => h.elim id fun heq => heq ▸ hmem⟩
  · rw [List.mem_append, List.mem_singleton]

theorem nodup_addType (h : types.Nodup) : (addType types t).Nodup := by
  rw [addType]
  split_ifs with hmem
  · exact h
  · rw [List.nodup_append]
    exact ⟨h, List.nodup_singleton t, fun a ha b hb heq => hmem (List.mem_singleton.mp hb ▸ heq ▸ ha)⟩

theorem mem_foldl_addType {new : List CommentType} : t ∈ new.foldl addType types ↔ t ∈ types ∨ t ∈ new := by
  induction new generalizing types with
  | nil => simp
  | cons t' new ih => rw [List.foldl_cons, ih, mem_addType, List.mem_cons, or_assoc]

theorem nodup_foldl_addType {new : List CommentType} (h : types.Nodup) : (new.foldl addType types).Nodup := by
  induction new generalizing types with
  | nil => exact h
  | cons t' new ih => exact ih (nodup_addType h)

theorem mem_add_types {agg : CommentAgg} {commentType : Option CommentType} :
    t ∈ (agg.add commentType).types ↔ t ∈ agg.types ∨ commentType = some t := by
  rcases commentType with _ | t'
  · simp [CommentAgg.add]
  · show t ∈ addType agg.types t' ↔ _
    rw [mem_addType, Option.some_inj, eq_comm (a := t)]

/-- A comment counts where its path matches. -/
theorem groupCount_addToGroup (comment : FileComment) (group : PathGroup) :
    groupCount path (addToGroup comment group) =
      groupCount path group + if pathsMatch comment.path path then 1 else 0 := by
  refine KeyedList.sum_map_upsert (fun e he hkey => ?_) ?_
  · rw [← of_decide_eq_true hkey]
    by_cases hmatch : pathsMatch e.1 path = true
    · simp only [if_pos hmatch]
      rfl
    · simp only [if_neg hmatch]
  · rfl

theorem hasType_addToGroup (t : CommentType) (comment : FileComment) (group : PathGroup) :
    HasType path t (addToGroup comment group) ↔
      HasType path t group ∨ (pathsMatch comment.path path = true ∧ comment.commentType = some t) := by
  refine KeyedList.exists_mem_upsert (fun e he hkey => ?_) ?_
  · rw [← of_decide_eq_true hkey, mem_add_types, and_or_left]
  · show _ ∧ t ∈ (CommentAgg.empty.add comment.commentType).types ↔ _
    rw [mem_add_types]
    exact and_congr_right fun _ => or_iff_right List.not_mem_nil

/-- The loop finds what the group counts, and no type twice. -/
theorem countComments_eq (group : PathGroup) :
    (countComments path group).1 = groupCount path group ∧ (countComments path group).2.Nodup ∧
      ∀ t, t ∈ (countComments path group).2 ↔ HasType path t group := by
  suffices hrun : ∀ (n : ℕ) (types : List CommentType), types.Nodup →
      let found := group.foldl (fun found e =>
        if pathsMatch e.1 path then (found.1 + e.2.count, e.2.types.foldl addType found.2) else found) (n, types)
      found.1 = n + groupCount path group ∧ found.2.Nodup ∧ ∀ t, t ∈ found.2 ↔ t ∈ types ∨ HasType path t group by
    obtain ⟨hcount, hnodup, htypes⟩ := hrun 0 [] List.nodup_nil
    exact ⟨hcount.trans (Nat.zero_add _), hnodup, fun t => (htypes t).trans (or_iff_right List.not_mem_nil)⟩
  induction group with
  | nil =>
    intro n types hnodup
    exact ⟨rfl, hnodup, fun t => (or_iff_left fun ⟨_, he, _⟩ => List.not_mem_nil he).symm⟩
  | cons e group ih =>
    intro n types hnodup
    by_cases hmatch : pathsMatch e.1 path = true
    · obtain ⟨hcount, hnodup, htypes⟩ := ih (n + e.2.count) (e.2.types.foldl addType types) (nodup_foldl_addType hnodup)
      simp only [List.foldl_cons, if_pos hmatch]
      refine ⟨?_, hnodup, fun t => ?_⟩
      · rw [hcount, groupCount, groupCount, List.map_cons, List.sum_cons, if_pos hmatch, Nat.add_assoc]
      · rw [htypes, mem_foldl_addType, or_assoc, HasType, HasType, List.exists_mem_cons_iff]
        simp only [hmatch, true_and]
    · obtain ⟨hcount, hnodup, htypes⟩ := ih n types hnodup
      simp only [List.foldl_cons, if_neg hmatch]
      refine ⟨?_, hnodup, fun t => ?_⟩
      · rw [hcount, groupCount, groupCount, List.map_cons, List.sum_cons, if_neg hmatch, Nat.zero_add]
      · rw [htypes, HasType, HasType, List.exists_mem_cons_iff]
        simp only [hmatch, Bool.false_eq_true, false_and, false_or]

/-! ## The groups of the comments -/

theorem candidates_step (comment : FileComment) (groups : List (JsString × PathGroup)) (base : JsString) :
    candidates (upsert (fun g => g.1 = basename comment.path) (basename comment.path, [])
        (fun g => (g.1, addToGroup comment g.2)) groups) base =
      if base = basename comment.path then addToGroup comment (candidates groups base) else candidates groups base := by
  let f : JsString × PathGroup → JsString × PathGroup := fun g => (g.1, addToGroup comment g.2)
  have hfind : (upsert (fun g => g.1 = basename comment.path) (basename comment.path, []) f groups).find?
      (fun g => g.1 = base) = if base = basename comment.path
        then some (f ((groups.find? fun g => g.1 = basename comment.path).getD (basename comment.path, [])))
        else groups.find? fun g => g.1 = base := by
    refine KeyedList.find?_upsert Prod.fst ?_ ?_ base
    · exact fun _ _ h => h
    · rfl
  rw [candidates, hfind]
  by_cases hbase : base = basename comment.path
  · rw [if_pos hbase, if_pos hbase, candidates, hbase]
    generalize groups.find? _ = found
    cases found <;> rfl
  · rw [if_neg hbase, if_neg hbase, candidates]

/-- A group holds what the comments with its last name count. -/
theorem candidates_groupCommentsByBasename (comments : List FileComment) (path : JsString) :
    let group := candidates (groupCommentsByBasename comments) (basename path)
    groupCount path group = comments.countP (fun c => pathsMatch c.path path) ∧
      ∀ t, HasType path t group ↔ ∃ c ∈ comments, pathsMatch c.path path = true ∧ c.commentType = some t := by
  induction comments using List.reverseRec with
  | nil => exact ⟨rfl, fun t => ⟨fun ⟨_, he, _⟩ => absurd he List.not_mem_nil, fun ⟨_, hc, _⟩ => absurd hc List.not_mem_nil⟩⟩
  | append_singleton comments comment ih =>
    obtain ⟨hcount, htypes⟩ := ih
    let group := candidates (groupCommentsByBasename comments) (basename path)
    have hstep : candidates (groupCommentsByBasename (comments ++ [comment])) (basename path) =
        if basename path = basename comment.path then addToGroup comment group else group := by
      rw [groupCommentsByBasename, List.foldl_append]
      exact candidates_step comment (groupCommentsByBasename comments) (basename path)
    simp only [hstep, List.countP_append, List.countP_singleton, List.mem_append, List.mem_singleton, or_and_right,
      exists_or, exists_eq_left, ← htypes, ← hcount]
    by_cases hbase : basename path = basename comment.path
    · simp only [if_pos hbase]
      exact ⟨groupCount_addToGroup path comment group, fun t => hasType_addToGroup path t comment group⟩
    · -- A comment of another group matches nothing here.
      have hmatch : ¬ pathsMatch comment.path path = true :=
        fun h => hbase (basename_eq_of_pathsMatch h).symm
      simp only [if_neg hbase, hmatch, Bool.false_eq_true, if_false, Nat.add_zero, false_and, or_false]
      exact ⟨rfl, fun t => Iff.rfl⟩

/-- The entry of each file counts the comments whose path matches the file's, and holds the types of these. -/
theorem buildFileEntries_counts (files : List FileDiffSummary) (reviewedPaths : List JsString)
    (comments : List FileComment) :
    List.Forall₂ (fun summary entry => entry.path = fileSummaryPath summary ∧
      entry.commentCount = comments.countP (fun c => pathsMatch c.path (fileSummaryPath summary)) ∧
      entry.commentTypes.Nodup ∧
      ∀ t, t ∈ entry.commentTypes ↔
        ∃ c ∈ comments, pathsMatch c.path (fileSummaryPath summary) = true ∧ c.commentType = some t)
      files (buildFileEntries files reviewedPaths comments) := by
  rw [buildFileEntries, List.forall₂_map_right_iff, List.forall₂_same]
  intro summary _
  obtain ⟨hcount, htypes⟩ := candidates_groupCommentsByBasename comments (fileSummaryPath summary)
  obtain ⟨hfound, hnodup, hmem⟩ := countComments_eq (fileSummaryPath summary)
    (candidates (groupCommentsByBasename comments) (basename (fileSummaryPath summary)))
  exact ⟨rfl, hfound.trans hcount, hnodup, fun t => (hmem t).trans (htypes t)⟩

end Builderbot.DiffViewer.Sidebar
