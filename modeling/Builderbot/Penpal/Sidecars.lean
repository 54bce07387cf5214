import Builderbot.Lib.Table
import Builderbot.Penpal.CommentStore
import Builderbot.Penpal.ProjectLookup
import Mathlib.Data.List.Sort

/-!
# The paths of the sidecars

`commentsPathForWorktree` of `apps/penpal/internal/comments/storage.go` gives the path of the sidecar of a file,
`SaveForWorktree` writes it by way of a temporary file, and `ListThreadsByStatusForWorktree` of `operations.go` walks
the directory of the comments and finds out the files again. The files are those below this directory; an input or
output operation may fail, and a save may be interrupted.

A sidecar is where the path leads from this directory with `.json` behind it. `sidecars_confined` says that it stays
below the directory and what the listing makes of it; it is what one expects of ordinary paths (`IsOrdinary`).
-/

namespace Builderbot.Penpal.Comments

open Lib GoPath

/-! ## Paths -/

def json : Bytes := Utf8.encode ".json".toList

def tmp : Bytes := Utf8.encode ".tmp".toList

def penpal : Bytes := Utf8.encode ".penpal".toList

def comments : Bytes := Utf8.encode "comments".toList

/-- `FindProject`. -/
def findProject (projects : List Lookup.Project) (qualifiedName : Bytes) : Option Lookup.Project :=
  projects.find? fun p => p.qualifiedName = qualifiedName

/-- `WorktreePath` for a worktree with a name. -/
def worktreePath (p : Lookup.Project) (worktree : Bytes) : Bytes :=
  ((p.worktrees.find? fun wt => wt.name = worktree).map Lookup.Worktree.path).getD []

/-- The directory of the project, or of its worktree. -/
def baseDir (projects : List Lookup.Project) (projectName worktree : Bytes) : Except Bytes Bytes :=
  match findProject projects projectName with
  | none => .error (Utf8.encode "project not found: ".toList ++ projectName)
  | some project =>
    if worktree = [] then .ok project.path
    else if worktreePath project worktree = [] then .error (Utf8.encode "worktree not found: ".toList ++ worktree)
    else .ok (worktreePath project worktree)

def commentsDir (basePath : Bytes) : Bytes :=
  join [basePath, penpal, comments]

/-- The path of a sidecar, in a working directory. -/
def resolve (cwd basePath filePath : Bytes) : Except Bytes Bytes :=
  let resolved := abs cwd (join [commentsDir basePath, filePath ++ json])
  if clean (abs cwd (commentsDir basePath)) ++ [slash] <+: clean resolved ++ [slash] then .ok resolved
  else .error (Utf8.encode "path traversal detected: ".toList ++ filePath)

def commentsPathForWorktree (cwd : Bytes) (projects : List Lookup.Project) (projectName filePath worktree : Bytes) :
    Except Bytes Bytes :=
  (baseDir projects projectName worktree).bind fun basePath => resolve cwd basePath filePath

/-! ## Files -/

/-- The files by their names, with what `json.Unmarshal` makes of them. -/
abbrev Files := Table (List Bytes) (Option FileComments)

/-- No file is in the way of the file, and it is no directory. -/
def Free (files : Files) (path : List Bytes) : Prop :=
  ∀ k ∈ files.keys, (k <+: path → k = path) ∧ (path <+: k → path = k)

instance (files : Files) (path : List Bytes) : Decidable (Free files path) :=
  inferInstanceAs (Decidable (∀ k ∈ files.keys, (k <+: path → k = path) ∧ (path <+: k → path = k)))

/-- How a save ends. -/
inductive SaveOutcome where
  | saved
  /-- The temporary file is left, with what has been written to it. -/
  | interrupted (data : Option FileComments)
  /-- The temporary file is removed after a failure. -/
  | removed
  | failed
deriving DecidableEq, Repr

structure Save where
  filePath : Bytes
  fc : FileComments
  outcome : SaveOutcome
deriving DecidableEq, Repr

/-- `SaveForWorktree` with the path of the sidecar. -/
def saveAt (files : Files) (p : Bytes) (fc : FileComments) : SaveOutcome → Option Files
  | .saved =>
    if Free files (names p) ∧ Free files (names (p ++ tmp)) then
      some ((files.erase (names (p ++ tmp))).insert (names p) (some (migrateInReplyTo fc)))
    else none
  | .interrupted data =>
    if Free files (names (p ++ tmp)) then some (files.insert (names (p ++ tmp)) data) else none
  | .removed => some (files.erase (names (p ++ tmp)))
  | .failed => some files

/-- `SaveForWorktree`. -/
def saveForWorktree (cwd basePath : Bytes) (files : Files) (s : Save) : Option Files :=
  match resolve cwd basePath s.filePath with
  | .error _ => some files
  | .ok p => saveAt files p s.fc s.outcome

structure ThreadWithFile where
  thread : Thread
  filePath : Bytes
deriving DecidableEq, Repr

/-- `strings.TrimSuffix`. -/
def trimSuffix (s suffix : Bytes) : Bytes := (List.dropSuffix? s suffix).getD s

/-- The function that `filepath.Walk` calls, for a file with the path `rel` below the directory. -/
def visit (commentsDir : Bytes) (status : Option Status) (rel : Bytes) (data : Option FileComments) : List ThreadWithFile :=
  if json <:+ commentsDir ++ slash :: rel then
    match data with
    | none => []
    | some fc => (fc.threads.filter fun t => status = none ∨ status = some t.status).map fun t => ⟨t, trimSuffix rel json⟩
  else []

/-- `ListThreadsByStatusForWorktree`. An empty status is none. -/
def listThreadsByStatus (cwd basePath : Bytes) (files : Files) (status : Option Status) : List ThreadWithFile :=
  let dir := names (abs cwd (commentsDir basePath))
  ((files.keys.filter fun path => dir <+: path ∧ dir ≠ path).mergeSort fun a b => a ≤ b).flatMap fun path =>
    visit (commentsDir basePath) status (relative (path.drop dir.length)) ((files.lookup path).getD none)

/-! ## What is to be shown -/

/-- The path is below the directory. -/
structure StrictlyInside (dir p : Bytes) : Prop where
  isCleanAbs : IsCleanAbs p
  below : names dir <+: names p
  ne : names dir ≠ names p

/-- A relative path that ends with a name and does not leave the directory it starts in. -/
structure IsOrdinary (filePath : Bytes) : Prop where
  relative : isAbs filePath = false
  name : IsName (lastPart filePath)
  inside : parent ∉ (elements filePath).foldl (push false) []

variable (cwd basePath : Bytes)

/-- The names of the directory of the comments. -/
def dirNames : List Bytes := names (abs cwd (commentsDir basePath))

/-- The path of a sidecar below the directory. -/
def below (p : Bytes) : Bytes := relative ((names p).drop (dirNames cwd basePath).length)

/-- The save is the last one of the sidecar. -/
def Stands (saves : List Save) (s : Save) (p : Bytes) : Prop :=
  ∃ before after, saves = before ++ s :: after ∧ s.outcome = .saved ∧ resolve cwd basePath s.filePath = .ok p ∧
    ∀ s' ∈ after, s'.outcome = .saved → resolve cwd basePath s'.filePath ≠ .ok p

variable {cwd basePath} {filePath p q : Bytes}

/-! ## Sidecars -/

/-- With a suffix of three bytes, a text is none of the two special elements. -/
theorem isName_append {suffix : Bytes} (hslash : slash ∉ filePath) (hsuffix : slash ∉ suffix) (hlen : 3 ≤ suffix.length) :
    IsName (filePath ++ suffix) := by
  have hlong : 3 ≤ (filePath ++ suffix).length := by
    rw [List.length_append]
    exact hlen.trans (Nat.le_add_left _ _)
  have hne {e : Bytes} (he : e.length < 3) : filePath ++ suffix ≠ e := by
    rintro rfl
    exact absurd hlong (Nat.not_le_of_lt he)
  refine ⟨⟨hne (by decide), fun hmem => ?_⟩, hne (by decide), hne (by decide)⟩
  exact (List.mem_append.mp hmem).elim hslash hsuffix

theorem isName_json (filePath : Bytes) : IsName (lastPart filePath ++ json) :=
  isName_append (slash_notMem_lastPart filePath) (by decide) (by decide)

theorem isName_json_tmp (filePath : Bytes) : IsName (lastPart filePath ++ (json ++ tmp)) :=
  isName_append (slash_notMem_lastPart filePath) (by decide) (by decide)

theorem isName_comments : IsName comments := by decide

theorem exists_commentsDir (basePath : Bytes) : ∃ before, commentsDir basePath = clean (before ++ slash :: comments) := by
  rw [commentsDir, join]
  by_cases hbase : basePath = []
  · subst hbase
    exact ⟨penpal, by decide⟩
  · rw [List.dropWhile_cons_of_neg (by simpa using hbase)]
    refine ⟨basePath ++ slash :: penpal, ?_⟩
    rw [List.append_assoc]
    simp [List.intercalate, List.intersperse]

theorem isName_of_mem_dirNames {e : Bytes} (he : e ∈ dirNames cwd basePath) : IsName e := isName_of_mem_names he

variable (hcwd : isAbs cwd = true)
include hcwd

/-- The last name of the directory is that of no sidecar. -/
theorem exists_dirNames (basePath : Bytes) : ∃ before, dirNames cwd basePath = before ++ [comments] := by
  obtain ⟨before, hdir⟩ := exists_commentsDir basePath
  rw [dirNames, hdir, names_abs_clean hcwd, names_abs hcwd, elements_append_slash,
    elements_of_isElement isName_comments.toIsElement, List.foldl_append]
  exact ⟨_, push_of_isName true _ isName_comments⟩

/-- A sidecar is where the path leads, if that is in the directory. -/
theorem resolve_eq_ok_iff : resolve cwd basePath filePath = .ok p ↔
    p = absolute ((elements (filePath ++ json)).foldl (push true) (dirNames cwd basePath)) ∧
      dirNames cwd basePath <+: (elements (filePath ++ json)).foldl (push true) (dirNames cwd basePath) := by
  obtain ⟨before, hdir⟩ := exists_dirNames hcwd basePath
  have hnonempty : dirNames cwd basePath ≠ [] := by
    rw [hdir]
    exact List.append_ne_nil_of_right_ne_nil _ (List.cons_ne_nil _ [])
  have hcomments : commentsDir basePath ≠ [] := by
    obtain ⟨before, hclean⟩ := exists_commentsDir basePath
    rw [hclean]
    exact clean_ne_nil _
  have hnames : names (abs cwd (join [commentsDir basePath, filePath ++ json])) =
      (elements (filePath ++ json)).foldl (push true) (dirNames cwd basePath) := names_abs_join hcwd hcomments _
  have habs := isCleanAbs_abs hcwd (join [commentsDir basePath, filePath ++ json])
  have habsDir := isCleanAbs_abs hcwd (commentsDir basePath)
  rw [resolve, habs.clean, habsDir.clean, habs.eq_absolute, habsDir.eq_absolute, hnames,
    show names (abs cwd (commentsDir basePath)) = dirNames cwd basePath from rfl]
  have hway : ∀ e ∈ (elements (filePath ++ json)).foldl (push true) (dirNames cwd basePath), IsElement e := by
    rw [← hnames]
    exact fun e he => (isName_of_mem_names he).toIsElement
  have htest := isPrefix_absolute_slash (fun e he => (isName_of_mem_dirNames he).toIsElement) hway hnonempty
  split
  case isTrue hpre => exact ⟨fun h => ⟨(Except.ok.inj h).symm, htest.mp hpre⟩, fun h => by rw [h.1]⟩
  case isFalse hnot => exact ⟨fun h => (by cases h), fun h => absurd (htest.mpr h.2) hnot⟩

/-- A sidecar is the file with `.json` behind the last part of the path, below the directory. -/
theorem exists_of_resolve (h : resolve cwd basePath filePath = .ok p) :
    ∃ mid, (∀ e ∈ mid, IsName e) ∧ p = absolute (dirNames cwd basePath ++ mid ++ [lastPart filePath ++ json]) := by
  obtain ⟨hp, hpre⟩ := (resolve_eq_ok_iff hcwd).mp h
  obtain ⟨before, hbefore, hlast⟩ := exists_elements_append filePath
  have hname : IsName (lastPart filePath ++ json) := isName_json filePath
  have hway : (elements (filePath ++ json)).foldl (push true) (dirNames cwd basePath) =
      before.foldl (push true) (dirNames cwd basePath) ++ [lastPart filePath ++ json] := by
    rw [hlast json (by decide) hname.ne_nil, List.foldl_append]
    exact push_of_isName true _ hname
  rw [hway] at hp hpre
  rcases List.prefix_concat_iff.mp hpre with hsame | ⟨mid, hmid⟩
  · -- the directory does not end with `.json`
    obtain ⟨dir, hdir⟩ := exists_dirNames hcwd basePath
    rw [hdir] at hsame
    have hcomments : comments = lastPart filePath ++ json := (List.append_inj' hsame rfl).2 |> List.singleton_inj.mp
    have hsuffix : json <:+ comments := hcomments ▸ List.suffix_append _ _
    exact absurd hsuffix (by decide)
  · refine ⟨mid, fun e he => ?_, by rw [hp, hmid]⟩
    refine foldl_push_true_isName (fun x (hx : x ∈ dirNames cwd basePath) => isName_of_mem_dirNames hx) hbefore e ?_
    rw [← hmid]
    exact List.mem_append_right _ he

/-- The names of a sidecar and of its temporary file. -/
theorem names_resolve (h : resolve cwd basePath filePath = .ok p) : ∃ mid, (∀ e ∈ mid, IsName e) ∧
    names p = dirNames cwd basePath ++ mid ++ [lastPart filePath ++ json] ∧
      names (p ++ tmp) = dirNames cwd basePath ++ mid ++ [lastPart filePath ++ (json ++ tmp)] := by
  obtain ⟨mid, hmid, rfl⟩ := exists_of_resolve hcwd h
  have hconcat {x : Bytes} (hx : IsName x) : ∀ e ∈ dirNames cwd basePath ++ mid ++ [x], IsName e := by
    intro e he
    rcases List.mem_append.mp he with he | he
    · exact (List.mem_append.mp he).elim isName_of_mem_dirNames (hmid e)
    · exact List.mem_singleton.mp he ▸ hx
  refine ⟨mid, hmid, names_absolute (hconcat (isName_json filePath)), ?_⟩
  rw [← absolute_concat_append, List.append_assoc (lastPart filePath)]
  exact names_absolute (hconcat (isName_json_tmp filePath))

theorem isCleanAbs_of_resolve (h : resolve cwd basePath filePath = .ok p) : IsCleanAbs p := by
  rw [((resolve_eq_ok_iff hcwd).mp h).1]
  refine ⟨isAbs_absolute _, clean_absolute ?_⟩
  exact foldl_push_true_isName (fun x hx => isName_of_mem_dirNames hx) fun e he => isElement_of_mem_elements he

theorem strictlyInside_of_resolve (h : resolve cwd basePath filePath = .ok p) :
    StrictlyInside (abs cwd (commentsDir basePath)) p := by
  obtain ⟨mid, -, hnames, -⟩ := names_resolve hcwd h
  refine ⟨isCleanAbs_of_resolve hcwd h, ⟨mid ++ [lastPart filePath ++ json], ?_⟩, fun hsame => ?_⟩
  · rw [hnames, List.append_assoc]
    rfl
  · have hlen := congrArg List.length hnames
    rw [← hsame, List.length_append, List.length_append] at hlen
    exact Nat.lt_irrefl _ (Nat.lt_of_lt_of_eq (Nat.lt_succ_of_le (Nat.le_add_right _ mid.length)) hlen.symm)

/-- A sidecar is the path itself behind the directory, cleaned. -/
theorem eq_clean_of_resolve (h : resolve cwd basePath filePath = .ok p) :
    p = clean (abs cwd (commentsDir basePath) ++ slash :: (filePath ++ json)) := by
  have habs := isAbs_abs hcwd (commentsDir basePath)
  have hne : abs cwd (commentsDir basePath) ≠ [] := by
    intro hnil
    rw [hnil] at habs
    cases habs
  rw [((resolve_eq_ok_iff hcwd).mp h).1, clean_of_isAbs (by rw [isAbs_append _ hne, habs]), names, elements_append_slash,
    List.foldl_append]
  rfl

/-- An ordinary path leads to its names below the directory. -/
theorem resolve_of_isOrdinary (basePath : Bytes) (h : IsOrdinary filePath) : ∃ mid, (∀ e ∈ mid, IsName e) ∧
    clean filePath = relative (mid ++ [lastPart filePath]) ∧
      resolve cwd basePath filePath = .ok (absolute (dirNames cwd basePath ++ mid ++ [lastPart filePath ++ json])) := by
  obtain ⟨before, hbefore, hlast⟩ := exists_elements_append filePath
  have helements : elements filePath = before ++ [lastPart filePath] := by
    have hself := hlast [] List.not_mem_nil (by rw [List.append_nil]; exact h.name.ne_nil)
    rwa [List.append_nil, List.append_nil] at hself
  have hreduced : (elements filePath).foldl (push false) [] = before.foldl (push false) [] ++ [lastPart filePath] := by
    rw [helements, List.foldl_append]
    exact push_of_isName false _ h.name
  obtain ⟨hself, hmid⟩ := reduced_invariant List.not_mem_nil (fun x hx => absurd hx List.not_mem_nil) hbefore
  have hnames : ∀ e ∈ before.foldl (push false) [], IsName e := by
    refine fun e he => ⟨hmid e he, fun heq => hself (heq ▸ he), fun heq => h.inside ?_⟩
    rw [hreduced]
    exact List.mem_append_left _ (heq ▸ he)
  have hway : (elements (filePath ++ json)).foldl (push true) (dirNames cwd basePath) =
      dirNames cwd basePath ++ before.foldl (push false) [] ++ [lastPart filePath ++ json] := by
    rw [hlast json (by decide) (isName_json filePath).ne_nil, List.foldl_append, ← foldl_push_reduced _ hbefore,
      foldl_push_of_isName true _ hnames]
    exact push_of_isName true _ (isName_json filePath)
  refine ⟨before.foldl (push false) [], hnames, ?_, (resolve_eq_ok_iff hcwd).mpr ⟨by rw [hway], ?_⟩⟩
  · rw [clean, h.relative, if_neg Bool.false_ne_true, hreduced]
  · rw [hway, List.append_assoc]
    exact List.prefix_append _ _

/-- What the sidecar of an ordinary path is called below the directory. -/
theorem below_of_isOrdinary (h : IsOrdinary filePath) (hp : resolve cwd basePath filePath = .ok p) :
    below cwd basePath p = clean filePath ++ json := by
  obtain ⟨mid, hmid, hclean, hresolve⟩ := resolve_of_isOrdinary hcwd basePath h
  obtain rfl := Except.ok.inj (hp.symm.trans hresolve)
  have hnames : names (absolute (dirNames cwd basePath ++ mid ++ [lastPart filePath ++ json])) =
      dirNames cwd basePath ++ mid ++ [lastPart filePath ++ json] := by
    refine names_absolute fun e he => ?_
    rcases List.mem_append.mp he with he | he
    · exact (List.mem_append.mp he).elim isName_of_mem_dirNames (hmid e)
    · exact List.mem_singleton.mp he ▸ isName_json filePath
  rw [below, hnames, List.append_assoc, List.drop_left, relative_concat_append, hclean]

/-- Ordinary paths have the same sidecar when they are the same after cleaning. -/
theorem resolve_eq_iff_of_isOrdinary {filePath' : Bytes} (h : IsOrdinary filePath) (h' : IsOrdinary filePath')
    (hp : resolve cwd basePath filePath = .ok p) (hq : resolve cwd basePath filePath' = .ok q) :
    p = q ↔ clean filePath = clean filePath' := by
  constructor
  · rintro rfl
    have hsame := (below_of_isOrdinary hcwd h hp).symm.trans (below_of_isOrdinary hcwd h' hq)
    exact List.append_cancel_right hsame
  · intro hsame
    obtain ⟨mid, hmid, hclean, hresolve⟩ := resolve_of_isOrdinary hcwd basePath h
    obtain ⟨mid', hmid', hclean', hresolve'⟩ := resolve_of_isOrdinary hcwd basePath h'
    have hconcat {mid : List Bytes} {x : Bytes} (hmid : ∀ e ∈ mid, IsName e) (hx : IsName x) :
        ∀ e ∈ mid ++ [x], IsName e := fun e he =>
      (List.mem_append.mp he).elim (hmid e) fun hlast => List.mem_singleton.mp hlast ▸ hx
    rw [hclean, hclean'] at hsame
    have hnames := relative_injective (hconcat hmid h.name) (hconcat hmid' h'.name) hsame
    obtain ⟨rfl, hlast⟩ := List.append_inj' hnames rfl
    rw [List.singleton_inj.mp hlast] at hresolve
    rw [Except.ok.inj (hp.symm.trans hresolve), Except.ok.inj (hq.symm.trans hresolve')]

/-! ## Saving -/

/-- The name is that of a temporary file. -/
def IsTemporary (path : List Bytes) : Prop := ∃ dir e, path = dir ++ [e] ∧ tmp <:+ e

/-- The name is that of a sidecar. -/
def IsSidecar (path : List Bytes) : Prop := ∃ dir e, path = dir ++ [e] ∧ json <:+ e

omit hcwd in
theorem IsSidecar.not_isTemporary {path : List Bytes} (h : IsSidecar path) : ¬ IsTemporary path := by
  rintro ⟨dir, e, rfl, htmp⟩
  obtain ⟨dir', e', hsame, hjson⟩ := h
  obtain ⟨-, hlast⟩ := List.append_inj' hsame rfl
  rw [← List.singleton_inj.mp hlast] at hjson
  have hshort : tmp <:+ json := List.suffix_of_suffix_length_le htmp hjson (by decide)
  exact absurd hshort (by decide)

theorem isSidecar_of_resolve (h : resolve cwd basePath filePath = .ok p) : IsSidecar (names p) := by
  obtain ⟨mid, -, hnames, -⟩ := names_resolve hcwd h
  exact ⟨_, _, hnames, List.suffix_append _ _⟩

theorem isTemporary_of_resolve (h : resolve cwd basePath filePath = .ok p) : IsTemporary (names (p ++ tmp)) := by
  obtain ⟨mid, -, -, hnames⟩ := names_resolve hcwd h
  refine ⟨_, _, hnames, ?_⟩
  rw [← List.append_assoc]
  exact List.suffix_append _ _

theorem names_inj_of_resolve {filePath' : Bytes} (hp : resolve cwd basePath filePath = .ok p)
    (hq : resolve cwd basePath filePath' = .ok q) (h : names p = names q) : p = q := by
  rw [(isCleanAbs_of_resolve hcwd hp).eq_absolute, h, ← (isCleanAbs_of_resolve hcwd hq).eq_absolute]

variable {saves : List Save} {s s' : Save} {files files' : Files}

omit hcwd in
theorem stands_concat : Stands cwd basePath (saves ++ [s]) s' p ↔
    (s' = s ∧ s.outcome = .saved ∧ resolve cwd basePath s.filePath = .ok p) ∨
      (Stands cwd basePath saves s' p ∧ (s.outcome = .saved → resolve cwd basePath s.filePath ≠ .ok p)) := by
  constructor
  · rintro ⟨before, after, hsplit, hsaved, hp, hafter⟩
    rcases List.eq_nil_or_concat after with rfl | ⟨after, last, rfl⟩
    · obtain ⟨-, hlast⟩ := List.append_inj' hsplit rfl
      obtain rfl := List.singleton_inj.mp hlast
      exact .inl ⟨rfl, hsaved, hp⟩
    · rw [List.concat_eq_append, ← List.cons_append, ← List.append_assoc] at hsplit
      obtain ⟨hsaves, hlast⟩ := List.append_inj' hsplit rfl
      obtain rfl := List.singleton_inj.mp hlast
      rw [List.concat_eq_append] at hafter
      refine .inr ⟨⟨before, after, hsaves, hsaved, hp, fun s₂ hs₂ => hafter s₂ (List.mem_append_left _ hs₂)⟩, ?_⟩
      exact hafter s (List.mem_append_right _ (List.mem_singleton_self s))
  · rintro (⟨rfl, hsaved, hp⟩ | ⟨⟨before, after, rfl, hsaved, hp, hafter⟩, hlast⟩)
    · exact ⟨saves, [], rfl, hsaved, hp, fun s₂ hs₂ => absurd hs₂ List.not_mem_nil⟩
    · refine ⟨before, after ++ [s], by rw [List.append_assoc, List.cons_append], hsaved, hp, fun s₂ hs₂ => ?_⟩
      rcases List.mem_append.mp hs₂ with hs₂ | hs₂
      · exact hafter s₂ hs₂
      · rw [List.mem_singleton.mp hs₂]
        exact hlast

/-- A save that ends well is in the sidecar, and every other end keeps the sidecars. -/
theorem lookup_saveAt (hp : resolve cwd basePath s.filePath = .ok p) (h : saveAt files p s.fc s.outcome = some files')
    {path : List Bytes} (hpath : ¬ IsTemporary path) :
    files'.lookup path =
      if s.outcome = .saved ∧ path = names p then some (some (migrateInReplyTo s.fc)) else files.lookup path := by
  have hne : path ≠ names (p ++ tmp) := fun heq => hpath (heq ▸ isTemporary_of_resolve hcwd hp)
  cases houtcome : s.outcome with
  | saved =>
    rw [houtcome, saveAt] at h
    split at h
    case isTrue =>
      cases h
      by_cases hsame : path = names p
      · rw [if_pos ⟨rfl, hsame⟩, hsame, AList.lookup_insert]
      · rw [if_neg fun hboth => hsame hboth.2, AList.lookup_insert_ne hsame, AList.lookup_erase_ne hne]
    case isFalse => cases h
  | interrupted data =>
    rw [houtcome, saveAt] at h
    split at h
    case isTrue =>
      cases h
      rw [if_neg fun hboth => (by cases hboth.1), AList.lookup_insert_ne hne]
    case isFalse => cases h
  | removed =>
    rw [houtcome, saveAt] at h
    cases h
    rw [if_neg fun hboth => (by cases hboth.1), AList.lookup_erase_ne hne]
  | failed =>
    rw [houtcome, saveAt] at h
    cases h
    rw [if_neg fun hboth => (by cases hboth.1)]

/-- The files are the sidecars with what was saved last, and temporary files. -/
def Kept (cwd basePath : Bytes) (saves : List Save) (files : Files) : Prop :=
  ∀ path, ¬ IsTemporary path → ∀ data, files.lookup path = some data ↔
    ∃ s p, Stands cwd basePath saves s p ∧ path = names p ∧ data = some (migrateInReplyTo s.fc)

theorem Kept.save (h : Kept cwd basePath saves files) (hstep : saveForWorktree cwd basePath files s = some files') :
    Kept cwd basePath (saves ++ [s]) files' := by
  intro path hpath data
  rw [saveForWorktree] at hstep
  split at hstep
  -- the path is refused, and nothing is written
  case h_1 error herror =>
    cases hstep
    rw [h path hpath data]
    refine exists_congr fun s' => exists_congr fun p => and_congr_left fun _ => ?_
    rw [stands_concat, herror]
    simp
  case h_2 p hp =>
    rw [lookup_saveAt hcwd hp hstep hpath]
    -- the file is the one written now, or keeps its last save
    by_cases hnew : s.outcome = .saved ∧ path = names p
    · rw [if_pos hnew]
      obtain ⟨hsaved, rfl⟩ := hnew
      constructor
      · intro hdata
        exact ⟨s, p, stands_concat.mpr (.inl ⟨rfl, hsaved, hp⟩), rfl, (Option.some.inj hdata).symm⟩
      · rintro ⟨s', q, hstands, hsame, rfl⟩
        rcases stands_concat.mp hstands with ⟨rfl, -, -⟩ | ⟨⟨-, -, -, -, hq, -⟩, hnot⟩
        · rfl
        · obtain rfl := names_inj_of_resolve hcwd hp hq hsame
          exact absurd hp (hnot hsaved)
    · rw [if_neg hnew, h path hpath data]
      refine exists_congr fun s' => exists_congr fun q => and_congr_left fun hdata => ?_
      rw [stands_concat]
      constructor
      · refine fun hstands => .inr ⟨hstands, fun hsaved hq => hnew ⟨hsaved, ?_⟩⟩
        rw [hdata.1, Except.ok.inj (hp.symm.trans hq)]
      · rintro (⟨-, hsaved, hq⟩ | ⟨hstands, -⟩)
        · refine absurd ⟨hsaved, ?_⟩ hnew
          rw [hdata.1, Except.ok.inj (hp.symm.trans hq)]
        · exact hstands

theorem run_kept (hrun : run (saveForWorktree cwd basePath) ∅ saves = some files) : Kept cwd basePath saves files := by
  induction saves using List.reverseRecOn generalizing files with
  | nil =>
    obtain rfl := Option.some.inj hrun
    intro path _ data
    refine ⟨fun h => (by cases h), ?_⟩
    rintro ⟨s, p, ⟨before, after, hsplit, -⟩, -⟩
    exact absurd hsplit.symm (by simp)
  | append_singleton saves s ih =>
    obtain ⟨middle, hbefore, hlast⟩ := run_append_eq_some.mp hrun
    obtain ⟨last, hstep, hnil⟩ := run_cons_eq_some.mp hlast
    obtain rfl := Option.some.inj hnil
    exact (ih hbefore).save hcwd hstep

/-! ## Listing -/

omit hcwd

theorem trimSuffix_append (s suffix : Bytes) : trimSuffix (s ++ suffix) suffix = s := by
  have hdrop : List.dropSuffix? (s ++ suffix) suffix = some s :=
    List.dropSuffix?_eq_some_iff.mpr ⟨suffix, rfl, BEq.rfl⟩
  rw [trimSuffix, hdrop]
  rfl

theorem suffix_relative_concat (es : List Bytes) (e : Bytes) : e <:+ relative (es ++ [e]) := by
  have hconcat := relative_concat_append es [] e
  rw [List.nil_append] at hconcat
  rw [hconcat]
  exact List.suffix_append _ _

theorem mem_visit {dir rel : Bytes} {status : Option Status} {data : Option FileComments} {x : ThreadWithFile} :
    x ∈ visit dir status rel data ↔ json <:+ dir ++ slash :: rel ∧ ∃ fc, data = some fc ∧
      x.thread ∈ fc.threads ∧ (status = none ∨ status = some x.thread.status) ∧ x.filePath = trimSuffix rel json := by
  rw [visit.eq_def]
  split
  case isFalse hnot => exact ⟨fun h => absurd h List.not_mem_nil, fun h => absurd h.1 hnot⟩
  case isTrue hjson =>
    rw [and_iff_right hjson]
    cases data with
    | none => exact ⟨fun h => absurd h List.not_mem_nil, fun ⟨fc, hdata, _⟩ => by cases hdata⟩
    | some fc =>
      constructor
      · intro h
        obtain ⟨t, ht, rfl⟩ := List.mem_map.mp h
        obtain ⟨hmem, hstatus⟩ := List.mem_filter.mp ht
        exact ⟨fc, rfl, hmem, of_decide_eq_true hstatus, rfl⟩
      · rintro ⟨_, ⟨⟩, hmem, hstatus, hfile⟩
        exact List.mem_map.mpr ⟨x.thread, List.mem_filter.mpr ⟨hmem, decide_eq_true hstatus⟩, by rw [← hfile]⟩

theorem mem_listThreadsByStatus {status : Option Status} {x : ThreadWithFile} :
    x ∈ listThreadsByStatus cwd basePath files status ↔ ∃ path data, files.lookup path = some data ∧
      dirNames cwd basePath <+: path ∧ dirNames cwd basePath ≠ path ∧
        x ∈ visit (commentsDir basePath) status (relative (path.drop (dirNames cwd basePath).length)) data := by
  rw [listThreadsByStatus, List.mem_flatMap]
  refine exists_congr fun path => ?_
  rw [List.mem_mergeSort, List.mem_filter, decide_eq_true_eq]
  constructor
  · rintro ⟨⟨hkey, hpre, hne⟩, hx⟩
    obtain ⟨data, hdata⟩ := Option.isSome_iff_exists.mp (AList.lookup_isSome.mpr hkey)
    rw [hdata] at hx
    exact ⟨data, hdata, hpre, hne, hx⟩
  · rintro ⟨data, hdata, hpre, hne, hx⟩
    have hkey : path ∈ files.keys := AList.lookup_isSome.mp (by rw [hdata]; rfl)
    rw [hdata]
    exact ⟨⟨hkey, hpre, hne⟩, hx⟩

/-- A file that the walk takes for a sidecar is no temporary file. -/
theorem not_isTemporary_of_suffix {path : List Bytes} {dir : Bytes} (hpre : dirNames cwd basePath <+: path)
    (hne : dirNames cwd basePath ≠ path)
    (hjson : json <:+ dir ++ slash :: relative (path.drop (dirNames cwd basePath).length)) : ¬ IsTemporary path := by
  rintro ⟨before, e, rfl, htmp⟩
  rcases List.prefix_concat_iff.mp hpre with hsame | ⟨mid, rfl⟩
  · exact hne hsame
  · rw [List.append_assoc, List.drop_left] at hjson
    have hlast : tmp <:+ dir ++ slash :: relative (mid ++ [e]) :=
      (htmp.trans (suffix_relative_concat mid e)).trans
        ((List.suffix_cons slash _).trans (List.suffix_append dir _))
    have hshort : tmp <:+ json := List.suffix_of_suffix_length_le hlast hjson (by decide)
    exact absurd hshort (by decide)

include hcwd

theorem exists_below (h : resolve cwd basePath filePath = .ok p) : ∃ g, below cwd basePath p = g ++ json := by
  obtain ⟨mid, -, hnames, -⟩ := names_resolve hcwd h
  refine ⟨relative (mid ++ [lastPart filePath]), ?_⟩
  rw [below, hnames, List.append_assoc, List.drop_left, relative_concat_append]

/-- The threads that were saved last are listed, each under what its sidecar is called without `.json`. -/
theorem mem_list_iff (hkept : Kept cwd basePath saves files) (status : Option Status) (x : ThreadWithFile) :
    x ∈ listThreadsByStatus cwd basePath files status ↔ ∃ s p, Stands cwd basePath saves s p ∧
      x.thread ∈ (migrateInReplyTo s.fc).threads ∧ (status = none ∨ status = some x.thread.status) ∧
        below cwd basePath p = x.filePath ++ json := by
  rw [mem_listThreadsByStatus]
  constructor
  · rintro ⟨path, data, hdata, hpre, hne, hx⟩
    obtain ⟨hjson, fc, rfl, hthread, hstatus, hfile⟩ := mem_visit.mp hx
    obtain ⟨s, p, hstands, rfl, hfc⟩ := (hkept path (not_isTemporary_of_suffix hpre hne hjson) _).mp hdata
    obtain rfl := Option.some.inj hfc
    have hresolve := hstands.choose_spec.choose_spec.2.2.1
    obtain ⟨g, hg⟩ := exists_below hcwd hresolve
    refine ⟨s, p, hstands, hthread, hstatus, ?_⟩
    rw [hfile, show relative ((names p).drop (dirNames cwd basePath).length) = g ++ json from hg, trimSuffix_append]
    exact hg
  · rintro ⟨s, p, hstands, hthread, hstatus, hbelow⟩
    have hresolve := hstands.choose_spec.choose_spec.2.2.1
    obtain ⟨-, hpre, hne⟩ := strictlyInside_of_resolve hcwd hresolve
    have hdata := (hkept (names p) (isSidecar_of_resolve hcwd hresolve).not_isTemporary _).mpr ⟨s, p, hstands, rfl, rfl⟩
    refine ⟨names p, _, hdata, hpre, hne, mem_visit.mpr ⟨?_, _, rfl, hthread, hstatus, ?_⟩⟩
    · rw [show relative ((names p).drop (dirNames cwd basePath).length) = x.filePath ++ json from hbelow]
      exact (List.suffix_append _ json).trans ((List.suffix_cons slash _).trans (List.suffix_append _ _))
    · rw [show relative ((names p).drop (dirNames cwd basePath).length) = x.filePath ++ json from hbelow,
        trimSuffix_append]

/-- Sidecars are below the directory of the comments; they are the same when the paths with `.json` lead to the same
place, which for ordinary paths means that they are the same after cleaning; and the threads that were saved last are
listed, each under the path of its sidecar below the directory without `.json`, which for an ordinary path is the
cleaned path. -/
theorem sidecars_confined (projects : List Lookup.Project) (projectName worktree : Bytes) :
    (∀ filePath p, commentsPathForWorktree cwd projects projectName filePath worktree = .ok p →
      ∃ basePath, baseDir projects projectName worktree = .ok basePath ∧
        StrictlyInside (abs cwd (commentsDir basePath)) p) ∧
    (∀ basePath, baseDir projects projectName worktree = .ok basePath → ∀ filePath filePath' p p',
      resolve cwd basePath filePath = .ok p → resolve cwd basePath filePath' = .ok p' →
        (p = p' ↔ clean (abs cwd (commentsDir basePath) ++ slash :: (filePath ++ json)) =
          clean (abs cwd (commentsDir basePath) ++ slash :: (filePath' ++ json))) ∧
        (IsOrdinary filePath → IsOrdinary filePath' → (p = p' ↔ clean filePath = clean filePath'))) ∧
    ∀ basePath, baseDir projects projectName worktree = .ok basePath →
      ∀ saves files, run (saveForWorktree cwd basePath) ∅ saves = some files → ∀ status thread filePath,
        (⟨thread, filePath⟩ ∈ listThreadsByStatus cwd basePath files status ↔
          ∃ s p, Stands cwd basePath saves s p ∧ thread ∈ (migrateInReplyTo s.fc).threads ∧
            (status = none ∨ status = some thread.status) ∧ below cwd basePath p = filePath ++ json ∧
              (IsOrdinary s.filePath → filePath = clean s.filePath)) := by
  refine ⟨fun filePath p hp => ?_, fun basePath _ filePath filePath' p p' hp hp' => ⟨?_, fun h h' => ?_⟩,
    fun basePath _ saves files hrun status thread filePath => ?_⟩
  · rw [commentsPathForWorktree] at hp
    cases hbase : baseDir projects projectName worktree with
    | error e =>
      rw [hbase] at hp
      cases hp
    | ok basePath =>
      rw [hbase] at hp
      exact ⟨basePath, rfl, strictlyInside_of_resolve hcwd hp⟩
  · rw [← eq_clean_of_resolve hcwd hp, ← eq_clean_of_resolve hcwd hp']
  · exact resolve_eq_iff_of_isOrdinary hcwd h h' hp hp'
  · rw [mem_list_iff hcwd (run_kept hcwd hrun)]
    refine exists_congr fun s => exists_congr fun p => and_congr_right fun hstands => and_congr_right fun _ =>
      and_congr_right fun _ => ⟨fun hbelow => ⟨hbelow, fun hordinary => ?_⟩, And.left⟩
    have hresolve := hstands.choose_spec.choose_spec.2.2.1
    rw [below_of_isOrdinary hcwd hordinary hresolve] at hbelow
    exact (List.append_cancel_right hbelow).symm

omit hcwd

/-- A project at `/p`. -/
def plain : List Lookup.Project := [⟨Utf8.encode "p".toList, Utf8.encode "/p".toList, [], []⟩]

def plainThread : Thread := ⟨[], .opened, ⟨[], [], [], 1⟩, [], 0, none, []⟩

/-- A path with an empty element, and a save for it. -/
theorem sidecars_confined_plain :
    (∃ basePath, baseDir plain (Utf8.encode "p".toList) [] = .ok basePath ∧
      StrictlyInside (abs [slash] (commentsDir basePath)) (Utf8.encode "/p/.penpal/comments/d/x.md.json".toList)) ∧
    ∃ files, run (saveForWorktree [slash] (Utf8.encode "/p".toList)) ∅
        [⟨Utf8.encode "d//x.md".toList, ⟨[plainThread]⟩, .saved⟩] = some files ∧
      ⟨plainThread, Utf8.encode "d/x.md".toList⟩ ∈ listThreadsByStatus [slash] (Utf8.encode "/p".toList) files none := by
  obtain ⟨hinside, -, hlisted⟩ := @sidecars_confined [slash] rfl plain (Utf8.encode "p".toList) []
  refine ⟨hinside (Utf8.encode "d//x.md".toList) _ (by decide), ?_⟩
  obtain ⟨files, hrun, -⟩ := exists_run_of_any (p := fun _ => true)
    (show (run (saveForWorktree [slash] (Utf8.encode "/p".toList)) ∅
      [⟨Utf8.encode "d//x.md".toList, ⟨[plainThread]⟩, .saved⟩]).any _ = true by decide)
  refine ⟨files, hrun, (hlisted _ (by decide) _ files hrun none plainThread _).mpr
    ⟨⟨Utf8.encode "d//x.md".toList, ⟨[plainThread]⟩, .saved⟩, Utf8.encode "/p/.penpal/comments/d/x.md.json".toList,
      ⟨[], [], rfl, rfl, by decide, fun _ h => absurd h List.not_mem_nil⟩, by decide, .inl rfl, by decide,
      fun _ => by decide⟩⟩

/-- The paths `a` and `a/` are the same after cleaning, and have different sidecars. -/
theorem slash_has_own_sidecar : ¬ ∀ filePath filePath' p p',
    commentsPathForWorktree [slash] plain (Utf8.encode "p".toList) filePath [] = .ok p →
      commentsPathForWorktree [slash] plain (Utf8.encode "p".toList) filePath' [] = .ok p' →
        (p = p' ↔ clean filePath = clean filePath') := by
  intro h
  have hsame := (h (Utf8.encode "a".toList) (Utf8.encode "a/".toList)
    (Utf8.encode "/p/.penpal/comments/a.json".toList) (Utf8.encode "/p/.penpal/comments/a/.json".toList)
    (by decide) (by decide)).mpr (by decide)
  exact absurd hsame (by decide)

end Builderbot.Penpal.Comments
