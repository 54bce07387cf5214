import Builderbot.Penpal.ProjectScan

/-!
# A single file and the scan

`ResolveFileInfo` promises the exclusion rules of `scanProjectSources`. The two agree on a file unless one
of the rules that only one of them has decides: the walk never enters a `.git` directory, tests the name of
the source root itself, takes a negated pattern for one that ignores, and does not ask git any more once the
command has died. Files that a source lists have a title only when they are resolved one by one, and nothing
outside of the project is resolved.
-/

namespace Builderbot.Penpal

open Lib.Text

open Git (Text)

/-! ## Relative paths -/

theorem rel_nil (target : Path) : rel [] target = ⟨0, target⟩ := by
  rw [rel]
  · rfl
  · rintro _ _ _ _ ⟨⟩

theorem rel_cons_nil (b : Text) (start : Path) : rel (b :: start) [] = ⟨start.length + 1, []⟩ := by
  rw [rel]
  · rfl
  · rintro _ _ _ _ - ⟨⟩

/-- A relative path leads back to its target. -/
theorem rel_target (start target : Path) :
    (rel start target).ups ≤ start.length ∧
      start.take (start.length - (rel start target).ups) ++ (rel start target).down = target := by
  induction start generalizing target with
  | nil =>
    rw [rel_nil]
    exact ⟨Nat.le_refl _, rfl⟩
  | cons b start ih =>
    rcases target with _ | ⟨t, target⟩
    · rw [rel_cons_nil]
      exact ⟨Nat.le_refl _, by simp⟩
    · rw [rel]
      by_cases hbt : b = t
      · obtain ⟨hups, htarget⟩ := ih target
        rw [if_pos hbt, hbt]
        refine ⟨Nat.le_succ_of_le hups, ?_⟩
        have hlen : (t :: start).length - (rel start target).ups =
            start.length - (rel start target).ups + 1 := by
          rw [List.length_cons]
          omega
        rw [hlen, List.take_succ_cons, List.cons_append, htarget]
      · rw [if_neg hbt]
        exact ⟨Nat.le_refl _, by simp⟩

/-- A file is known by its path relative to the project. -/
theorem rel_injective (start : Path) : Function.Injective (rel start) := by
  intro p q h
  rw [← (rel_target start p).2, ← (rel_target start q).2, h]

theorem rel_append (root rest : Path) : rel root (root ++ rest) = ⟨0, rest⟩ := by
  induction root with
  | nil => exact rel_nil rest
  | cons name root ih => rw [List.cons_append, rel, if_pos rfl, ih]

/-! ## Directories below a root -/

/-- The directories below `root` down to `rest` below it. -/
def below (root rest : Path) : List Path := (FileTree.way root rest ++ [root ++ rest]).tail

theorem below_nil (root : Path) : below root [] = [] := by
  rfl

theorem below_concat (root rest : Path) (name : Text) :
    below root (rest ++ [name]) = below root rest ++ [root ++ (rest ++ [name])] := by
  rw [below, below, FileTree.way_concat, List.tail_append_of_ne_nil (by simp)]

theorem way_eq_cons_below (root rest : Path) (name : Text) :
    FileTree.way root (rest ++ [name]) = root :: below root rest := by
  rw [FileTree.way_concat, below]
  rcases rest with _ | ⟨first, rest⟩
  · simp [FileTree.way]
  · rfl

theorem base_concat (path : Path) (name : Text) : base (path ++ [name]) = name := by
  rw [base, List.getLast?_concat]
  rfl

theorem map_base_below (root rest : Path) : (below root rest).map base = rest := by
  induction rest using List.reverseRecOn with
  | nil => rfl
  | append_singleton rest name ih =>
    rw [below_concat, List.map_append, ih, List.map_singleton, ← List.append_assoc, base_concat]

theorem isBelow_append {root : Path} (hroot : root ≠ []) {rest : Path} (hrest : rest ≠ []) :
    isBelow root (root ++ rest) = true := by
  rw [isBelow, Bool.and_eq_true, Bool.and_eq_true, decide_eq_true_eq, decide_eq_true_eq,
    List.isPrefixOf_iff_prefix]
  refine ⟨⟨hroot, ?_⟩, List.prefix_append _ _⟩
  simpa using hrest

/-- The loop upwards tests the directories below the root. -/
theorem anyAncestorBelow_eq (test : Path → Bool) {root : Path} (hroot : root ≠ []) (rest : Path)
    {fuel : ℕ} (hfuel : rest.length ≤ fuel) :
    anyAncestorBelow test root fuel (root ++ rest) = (below root rest).any test := by
  induction rest using List.reverseRecOn generalizing fuel with
  | nil =>
    cases fuel with
    | zero => rfl
    | succ fuel => simp [anyAncestorBelow, below_nil]
  | append_singleton rest name ih =>
    rw [List.length_append, List.length_singleton] at hfuel
    obtain ⟨fuel, rfl⟩ : ∃ n, fuel = n + 1 := ⟨fuel - 1, by omega⟩
    have hbelow : isBelow root (root ++ (rest ++ [name])) = true := isBelow_append hroot (by simp)
    have hlast : (root ++ (rest ++ [name])).dropLast = root ++ rest := by
      rw [← List.append_assoc, List.dropLast_concat]
    rw [anyAncestorBelow, if_pos ⟨by simp, hbelow⟩, hlast, ih (by omega), below_concat, List.any_append,
      List.any_cons, List.any_nil, Bool.or_false, Bool.or_comm]

/-! ## When the two agree -/

variable {s : ScanState} {source : FileSource}

section Agreement

variable (fs : FileTree FileData) (rules : IgnoreRules) (getSourceType : Text → Option SourceType)
  (project : Project)

/-- The root of a source that is walked. -/
def FileSource.treeRoot (source : FileSource) : Option Path :=
  match source.kind with
  | .thoughts | .tree => source.rootPath
  | .files | .unknown => none

/-- Whether the walk enters a directory, by whether the process of `gitIgnoreChecker` is running. -/
def enters (st : Option SourceType) (root : Path) (running : Bool) (dir : Path) : Bool :=
  (enterDir fs rules st root dir { running }).1

/-- The walk asks git about the directory, and the process dies of it. -/
def kills (root dir : Path) : Bool :=
  dir ≠ root && !hasGitFile fs dir && base dir ≠ ['.', 'g', 'i', 't'] && rules.answer dir = .fatal

/-- The process does not die in the walk of the source. -/
def survives (source : FileSource) : Bool :=
  match source.treeRoot with
  | none => true
  | some root =>
    match fs.at? root with
    | none => true
    | some tree =>
      (FileTree.comesTo (enters fs rules (getSourceType source.typeName) root true) root tree).all fun dir =>
        !kills fs rules root dir

/-- The process still runs when the scan comes to the directory in the walk of a source with this root, after the sources
`earlier`. -/
def stillRuns (earlier : List FileSource) (st : Option SourceType) (root dir : Path) : Bool :=
  rules.isGitRepo && earlier.all (survives fs rules getSourceType) &&
    match fs.at? root with
    | none => true
    | some tree =>
      (FileTree.comesBefore (enters fs rules st root true) root tree (dir.drop root.length)).all fun before =>
        !kills fs rules root before

/-- A rule that both functions have excludes the directory. -/
def BothExclude (st : Option SourceType) (running : Bool) (dir : Path) : Prop :=
  hasGitFile fs dir = true ∨ base dir ∈ skipDirs st ∨ running = true ∧ rules.checkIgnore dir = true

/-- A rule that only one of them has excludes the directory: the first two are rules of the scan, and the last is what it
misses when the process has died. -/
def OneExcludes (running : Bool) (dir : Path) : Prop :=
  base dir = ['.', 'g', 'i', 't'] ∨ running = true ∧ rules.answer dir = .negated ∨
    running = false ∧ rules.checkIgnore dir = true

/-- The source claims the file, by the tests of `ResolveFileInfo`. -/
def Claims (path : Path) (source : FileSource) : Prop :=
  source.isAllMarkdown = false ∧
    ((∃ root ∈ source.treeRoot, (isBelow root path = true ∨ path = root) ∧ isUnderNestedGitRepo fs path root = false ∧
        isAncestorDirGitIgnored rules path root = false ∧
        hasSkippedDir (rel root path) (getSourceType source.typeName) = false ∧
        hasSibling fs (getSourceType source.typeName) path = true ∧
        classify (getSourceType source.typeName) (rel root path) ≠ none) ∨
      source.kind = .files ∧ path ∈ source.files)

/-- The source has no entry for a file that it contains, whatever excludes the file: the type of the source does not have
it, or an earlier source has claimed it. -/
def NoEntry (earlier : List FileSource) (source : FileSource) (root path : Path) : Prop :=
  hasSibling fs (getSourceType source.typeName) path = false ∨
    classify (getSourceType source.typeName) (rel root path) = none ∨
    source.isAllMarkdown = false ∧ ∃ claimant ∈ earlier, Claims fs rules getSourceType path claimant

/-- The rules of a walked source that only one of the functions has do not matter for the file: there is no entry anyway, or
a rule of both excludes the file, or none of those rules does. -/
def TreeAgrees (earlier : List FileSource) (source : FileSource) (path : Path) : Prop :=
  ∀ root ∈ source.treeRoot, ∀ rest, path = root ++ rest →
    let st := getSourceType source.typeName
    let running := stillRuns fs rules getSourceType earlier st root
    NoEntry fs rules getSourceType earlier source root path ∨
      (∃ dir ∈ below root rest.dropLast, BothExclude fs rules st (running dir) dir) ∨
      root ≠ [] ∧ (rest ≠ [] → base root ≠ ['.', 'g', 'i', 't'] ∧ base root ∉ skipDirs st) ∧
        ∀ dir ∈ below root rest.dropLast, ¬ OneExcludes rules (running dir) dir

/-- A source that lists the file is not the one that claims every file, and the file has no title if this source has the
entry. -/
def ListAgrees (earlier : List FileSource) (source : FileSource) (path : Path) (data : FileData) : Prop :=
  source.kind = .files → path ∈ source.files →
    source.isAllMarkdown = false ∧
      ((∃ claimant ∈ earlier, Claims fs rules getSourceType path claimant) ∨ extractTitle data.content = [])

/-- The source does not contain the file. -/
def FileSource.IsApart (source : FileSource) (path : Path) : Prop :=
  (∀ root ∈ source.treeRoot, ¬ root <+: path) ∧ (source.kind = .files → path ∉ source.files)

/-- The rules that only one of the functions has do not matter for the file. -/
structure ResolveAgrees (path : Path) (data : FileData) : Prop where
  inside : ['.', '.'].isPrefixOf (rel project.path path).text = false ∨ ∀ source ∈ project.sources, source.IsApart path
  sources : ∀ earlier source later, project.sources = earlier ++ source :: later →
    TreeAgrees fs rules getSourceType earlier source path ∧ ListAgrees fs rules getSourceType earlier source path data

variable {fs rules getSourceType project} {path : Path} {data : FileData}

/-! ### What the scan shows of one file -/

variable (project path) in
/-- The entries of the file, and whether a source has claimed it. -/
def observeFile (s : ScanState) : List FileInfo × Bool :=
  (s.files.filter fun file => file.fullPath = rel project.path path, s.seen.contains (rel project.path path))

theorem observeFile_running (s : ScanState) (running : Bool) :
    observeFile project path { s with running } = observeFile project path s := rfl

variable (fs project path data) in
/-- What the visit of the file does. -/
def visitEffect (source : FileSource) (st : Option SourceType) (root : Path)
    (shown : List FileInfo × Bool) : List FileInfo × Bool :=
  if !isMarkdown path || !hasSibling fs st path then shown
  else if !source.isAllMarkdown && shown.2 then shown
  else
    match classify st (rel root path) with
    | none => shown
    | some fileType =>
      (shown.1 ++ [treeEntry project source root path data fileType],
        if source.isAllMarkdown then shown.2 else true)

theorem observes_visitFile (source : FileSource) (st : Option SourceType) (root : Path) :
    FileTree.Observes (enterDir fs rules st root) (visitFile fs project source st root)
      (observeFile project path) path data (visitEffect fs project path data source st root) where
  enter := by
    intro q s
    rw [enterDir]
    split
    · rfl
    · split
      · rfl
      · exact observeFile_running s _
  other := by
    intro q data' s hq
    -- another file has another relative path
    have hrel : rel project.path q ≠ rel project.path path := fun h => hq (rel_injective _ h)
    rw [visitFile]
    split
    · rfl
    · split
      · rfl
      · split
        · rfl
        · rw [observeFile, observeFile, List.filter_append, Prod.mk.injEq]
          refine ⟨?_, ?_⟩
          · simp [treeEntry, hrel]
          · cases source.isAllMarkdown with
            | true => rfl
            | false => simp [hrel.symm]
  target := by
    intro s
    rw [visitFile, visitEffect]
    split
    · rfl
    · show _ = if (!source.isAllMarkdown && s.seen.contains (rel project.path path)) = true then _ else _
      split
      · rfl
      · rcases classify st (rel root path) with _ | fileType
        · rfl
        · show observeFile project path { s with
            seen := if source.isAllMarkdown = true then s.seen else rel project.path path :: s.seen
            files := s.files ++ [treeEntry project source root path data fileType] } = _
          rw [observeFile, List.filter_append, Prod.mk.injEq]
          refine ⟨?_, ?_⟩
          · simp [treeEntry, observeFile]
          · cases source.isAllMarkdown with
            | true => rfl
            | false => simp

/-! ### Asking git -/

/-- What is entered depends on whether the process is running, which it is until it dies. -/
theorem flagged_enterDir (source : FileSource) (st : Option SourceType) (root : Path) :
    FileTree.Flagged (enterDir fs rules st root) (visitFile fs project source st root) ScanState.running
      (enters fs rules st root) (kills fs rules root) where
  enter_eq := by
    intro dir s
    rw [enters, enterDir, enterDir]
    split
    · rfl
    · split
      · rfl
      · by_cases hroot : dir = root
        · simp [hroot]
        · simp [hroot]
  flag_enter := by
    intro dir s
    rw [enterDir, kills]
    -- the rules are asked about every directory but the root of the source
    by_cases hroot : dir = root
    · simp only [hroot, ne_eq, not_true_eq_false, false_and, if_false, decide_false, Bool.false_and, Bool.not_false,
        Bool.and_true]
      split
      · rfl
      · rfl
    · split
      · rename_i hgit
        simp [hgit.2]
      · rename_i hgit
        have hfile : hasGitFile fs dir = false := Bool.eq_false_iff.mpr fun h => hgit ⟨hroot, h⟩
        split
        · rename_i hbase
          simp [hbase]
        · rename_i hbase
          simp only [ne_eq, hroot, not_false_eq_true, decide_true, hfile, Bool.not_false, hbase, Bool.and_self,
            Bool.true_and]
          unfold IgnoreRules.isIgnored
          cases s.running with
          | false => rfl
          | true => cases rules.answer dir <;> rfl
  flag_visit := by
    intro q data s
    rw [visitFile]
    split
    · rfl
    · split
      · rfl
      · split <;> rfl

/-! ### The way to the file -/

/-- A directory below the root is entered if neither a rule of both functions nor one of the scan excludes it. -/
theorem enters_eq {st : Option SourceType} {root dir : Path} {running : Bool} (hne : dir ≠ root)
    (hrepo : running = true → rules.isGitRepo = true) (hone : ¬ OneExcludes rules running dir) :
    enters fs rules st root running dir =
      (!hasGitFile fs dir && !rules.checkIgnore dir && !(skipDirs st).contains (base dir)) := by
  simp only [OneExcludes, not_or, not_and] at hone
  obtain ⟨hgit, hnegated, hdead⟩ := hone
  have hignored : (rules.isIgnored running dir).1 = rules.checkIgnore dir := by
    unfold IgnoreRules.isIgnored
    cases running with
    | false => exact (Bool.eq_false_iff.mpr (hdead rfl)).symm
    | true =>
      rw [IgnoreRules.checkIgnore, hrepo rfl]
      cases hanswer : rules.answer dir with
      | negated => exact absurd hanswer (hnegated rfl)
      | _ => rfl
  rw [enters, enterDir]
  simp only [ne_eq, hne, not_false_eq_true, true_and, if_true, hgit, if_false]
  cases hasGitFile fs dir with
  | true => rfl
  | false =>
    rw [if_neg Bool.false_ne_true, hignored]
    rfl

theorem enters_root {st : Option SourceType} {root : Path} {running : Bool}
    (hroot : base root ≠ ['.', 'g', 'i', 't'] ∧ base root ∉ skipDirs st) : enters fs rules st root running root = true := by
  simp [enters, enterDir, hroot.1, hroot.2]

/-- What a rule of both functions excludes is not entered. -/
theorem enters_of_bothExclude {st : Option SourceType} {root dir : Path} {running : Bool} (hne : dir ≠ root)
    (h : BothExclude fs rules st running dir) : enters fs rules st root running dir = false := by
  rw [enters, enterDir]
  simp only [ne_eq, hne, not_false_eq_true, true_and, if_true]
  split
  · rfl
  · rename_i hgit
    split
    · rfl
    · rcases h with h | h | ⟨hrunning, hignored⟩
      · exact absurd h hgit
      · simp [h]
      · rw [IgnoreRules.checkIgnore, Bool.and_eq_true, decide_eq_true_eq] at hignored
        subst hrunning
        simp [IgnoreRules.isIgnored, hignored.2]

theorem ne_root_of_mem_below {root rest dir : Path} (h : dir ∈ below root rest) : dir ≠ root := by
  induction rest using List.reverseRecOn with
  | nil => cases h
  | append_singleton rest name ih =>
    rw [below_concat, List.mem_append, List.mem_singleton] at h
    rcases h with h | rfl
    · exact ih h
    · simp

/-- The way is entered when none of the tests of `ResolveFileInfo` finds something. -/
theorem all_enters {st : Option SourceType} {root init : Path} {name : Text} {running : Path → Bool}
    (hroot : base root ≠ ['.', 'g', 'i', 't'] ∧ base root ∉ skipDirs st)
    (hrepo : ∀ dir, running dir = true → rules.isGitRepo = true)
    (hbelow : ∀ dir ∈ below root init, ¬ OneExcludes rules (running dir) dir) :
    ((FileTree.way root (init ++ [name])).all fun dir => enters fs rules st root (running dir) dir) =
      (!(below root init).any (hasGitFile fs) && !(below root init).any rules.checkIgnore &&
        !init.any fun name => (skipDirs st).contains name) := by
  have hskip : (init.any fun name => (skipDirs st).contains name) =
      (below root init).any fun dir => (skipDirs st).contains (base dir) := by
    conv_lhs => rw [← map_base_below root init]
    rw [List.any_map]
    rfl
  have hall : ((below root init).all fun dir => enters fs rules st root (running dir) dir) =
      (below root init).all fun dir =>
        !hasGitFile fs dir && !rules.checkIgnore dir && !(skipDirs st).contains (base dir) := by
    rw [Bool.eq_iff_iff, List.all_eq_true, List.all_eq_true]
    exact forall₂_congr fun dir hdir => by rw [enters_eq (ne_root_of_mem_below hdir) (hrepo dir) (hbelow dir hdir)]
  rw [way_eq_cons_below, List.all_cons, enters_root hroot, Bool.true_and, hskip, hall]
  clear hskip hall hbelow
  induction below root init with
  | nil => rfl
  | cons dir dirs ih =>
    rw [List.all_cons, ih, List.any_cons, List.any_cons, List.any_cons]
    cases hasGitFile fs dir <;> cases rules.checkIgnore dir <;>
      cases (skipDirs st).contains (base dir) <;> simp

/-! ### One source -/

variable (fs rules getSourceType project) in
/-- The scan of a walked source. -/
def scanTree (s : ScanState) (source : FileSource) (root : Path) : ScanState :=
  let st := getSourceType source.typeName
  match fs.at? root with
  | none => s
  | some tree =>
    FileTree.walk (enterDir fs rules st root) (visitFile fs project source st root) root tree s

variable (fs rules getSourceType project path data) in
/-- The tests of `ResolveFileInfo` for a walked source. -/
def resolveTree (acc : List FileInfo × Bool) (source : FileSource) (root : Path) : List FileInfo × Bool :=
  let st := getSourceType source.typeName
  if !isBelow root path && path ≠ root then acc
  else if isUnderNestedGitRepo fs path root then acc
  else if isAncestorDirGitIgnored rules path root then acc
  else if !source.isAllMarkdown && acc.2 then acc
  else if hasSkippedDir (rel root path) st then acc
  else if !hasSibling fs st path then acc
  else
    match classify st (rel root path) with
    | none => acc
    | some fileType =>
      (acc.1 ++ [treeEntry project source root path data fileType],
        if source.isAllMarkdown then acc.2 else true)

theorem scanSource_of_treeRoot {root : Path} (hroot : source.treeRoot = some root) (s : ScanState) :
    scanSource fs rules getSourceType project s source = scanTree fs rules getSourceType project s source root := by
  cases hkind : source.kind with
  | thoughts | tree =>
    simp only [FileSource.treeRoot, hkind] at hroot
    simp only [scanSource, hkind, hroot]
    rfl
  | files | unknown => simp [FileSource.treeRoot, hkind] at hroot

theorem resolveSource_of_treeRoot {root : Path} (hroot : source.treeRoot = some root) (acc : List FileInfo × Bool) :
    resolveSource fs rules getSourceType project path data acc source =
      resolveTree fs rules getSourceType project path data acc source root := by
  cases hkind : source.kind with
  | thoughts | tree =>
    simp only [FileSource.treeRoot, hkind] at hroot
    simp only [resolveSource, hkind, hroot]
    rfl
  | files | unknown => simp [FileSource.treeRoot, hkind] at hroot

/-- A file outside of the source. -/
theorem resolveTree_of_not_isPrefix {root : Path} (h : ¬ root <+: path) (acc : List FileInfo × Bool)
    (source : FileSource) : resolveTree fs rules getSourceType project path data acc source root = acc := by
  have hbelow : isBelow root path = false := by
    rw [isBelow, Bool.and_eq_false_iff]
    exact .inr (by simpa [← List.isPrefixOf_iff_prefix] using h)
  have hne : path ≠ root := by
    rintro rfl
    exact h (List.prefix_refl _)
  simp [resolveTree, hbelow, hne]

/-- A file that the tests let through is visited. -/
theorem resolveTree_eq_visitEffect {source : FileSource} {root : Path}
    (hin : isBelow root path = true ∨ path = root) (hmd : isMarkdown path = true)
    (hnested : isUnderNestedGitRepo fs path root = false)
    (hignored : isAncestorDirGitIgnored rules path root = false)
    (hskipped : hasSkippedDir (rel root path) (getSourceType source.typeName) = false)
    (acc : List FileInfo × Bool) :
    resolveTree fs rules getSourceType project path data acc source root =
      visitEffect fs project path data source (getSourceType source.typeName) root acc := by
  have hcontained : (!isBelow root path && decide (path ≠ root)) = false := by
    rcases hin with h | h
    · rw [h]
      rfl
    · simp [h]
  simp only [resolveTree, visitEffect, hcontained, hnested, hignored, hskipped, hmd, Bool.false_eq_true,
    if_false, Bool.not_true, Bool.false_or]
  cases source.isAllMarkdown <;> cases acc.2 <;>
    cases hasSibling fs (getSourceType source.typeName) path <;> rfl

/-- A file that one of the tests excludes. -/
theorem resolveTree_of_excluded {source : FileSource} {root : Path}
    (h : isUnderNestedGitRepo fs path root = true ∨ isAncestorDirGitIgnored rules path root = true ∨
      hasSkippedDir (rel root path) (getSourceType source.typeName) = true)
    (acc : List FileInfo × Bool) :
    resolveTree fs rules getSourceType project path data acc source root = acc := by
  simp only [resolveTree]
  rcases h with h | h | h
  · simp only [h, if_true, ite_self]
  · simp only [h, if_true, ite_self]
  · simp only [h, if_true, ite_self]

/-- The tests upwards, on a file below the root. -/
theorem excluded_eq {root init : Path} {name : Text} (hroot : root ≠ []) (st : Option SourceType)
    (hpath : path = root ++ (init ++ [name])) :
    isUnderNestedGitRepo fs path root = (below root init).any (hasGitFile fs) ∧
      isAncestorDirGitIgnored rules path root = (below root init).any rules.checkIgnore ∧
      hasSkippedDir (rel root path) st = init.any fun name => (skipDirs st).contains name := by
  have hparent : path.dropLast = root ++ init := by
    rw [hpath, ← List.append_assoc, List.dropLast_concat]
  have hfuel : init.length ≤ path.length := by
    rw [hpath]
    simp only [List.length_append, List.length_singleton]
    omega
  refine ⟨?_, ?_, ?_⟩
  · rw [isUnderNestedGitRepo, hparent, anyAncestorBelow_eq _ hroot _ hfuel]
  · rw [isAncestorDirGitIgnored, hparent, anyAncestorBelow_eq _ hroot _ hfuel]
  · rw [hasSkippedDir, hpath, rel_append]
    simp

/-- The root of the source is the file. -/
theorem excluded_root (root : Path) (st : Option SourceType) :
    isUnderNestedGitRepo fs root root = false ∧ isAncestorDirGitIgnored rules root root = false ∧
      hasSkippedDir (rel root root) st = false := by
  have hloop : ∀ (test : Path → Bool) (fuel : ℕ), anyAncestorBelow test root fuel root.dropLast = false := by
    intro test fuel
    cases fuel with
    | zero => rfl
    | succ fuel =>
      rw [anyAncestorBelow, if_neg]
      rintro ⟨hne, hbelow⟩
      simp only [isBelow, Bool.and_eq_true, List.isPrefixOf_iff_prefix] at hbelow
      have hlen := hbelow.2.length_le
      rw [List.length_dropLast] at hlen
      have hnil : root = [] := List.length_eq_zero_iff.mp (by omega)
      simp [hnil] at hbelow
  have hrel : rel root root = ⟨0, []⟩ := by
    have h := rel_append root []
    rwa [List.append_nil] at h
  refine ⟨hloop _ _, hloop _ _, ?_⟩
  rw [hrel]
  rfl

theorem mem_way_of_mem_below {root rest dir : Path} (h : dir ∈ below root rest.dropLast) : dir ∈ FileTree.way root rest := by
  rcases List.eq_nil_or_concat rest with rfl | ⟨init, name, rfl⟩
  · cases h
  · rw [List.concat_eq_append, List.dropLast_concat] at h
    rw [List.concat_eq_append, way_eq_cons_below]
    exact List.mem_cons_of_mem _ h

/-- A rule of both functions excludes the file from what is resolved. -/
theorem resolveTree_of_bothExclude {source : FileSource} {root rest dir : Path} {running : Bool}
    (hdir : dir ∈ below root rest.dropLast)
    (h : BothExclude fs rules (getSourceType source.typeName) running dir) (acc : List FileInfo × Bool) :
    resolveTree fs rules getSourceType project (root ++ rest) data acc source root = acc := by
  rcases List.eq_nil_or_concat rest with rfl | ⟨init, name, rfl⟩
  · cases hdir
  · rw [List.concat_eq_append] at *
    rw [List.dropLast_concat] at hdir
    by_cases hne : root = []
    · -- nothing is below the root of the file system
      simp [resolveTree, isBelow, hne]
    · obtain ⟨hnested, hignored, hskipped⟩ := @excluded_eq fs rules _ root init name hne
        (getSourceType source.typeName) rfl
      refine resolveTree_of_excluded ?_ acc
      rw [hnested, hignored, hskipped, List.any_eq_true, List.any_eq_true, List.any_eq_true]
      rcases h with h | h | ⟨-, h⟩
      · exact .inl ⟨dir, hdir, h⟩
      · refine .inr (.inr ⟨base dir, ?_, by simpa using h⟩)
        rw [← map_base_below root init]
        exact List.mem_map_of_mem hdir
      · exact .inr (.inl ⟨dir, hdir, h⟩)

/-- A file that gets no entry, resolved or visited. -/
theorem eq_of_noEntry {earlier : List FileSource} {source : FileSource} {root : Path} {acc : List FileInfo × Bool}
    (h : NoEntry fs rules getSourceType earlier source root path)
    (hclaimed : acc.2 = true ↔ ∃ claimant ∈ earlier, Claims fs rules getSourceType path claimant) :
    resolveTree fs rules getSourceType project path data acc source root = acc ∧
      visitEffect fs project path data source (getSourceType source.typeName) root acc = acc := by
  rcases h with h | h | ⟨hall, h⟩
  · simp [resolveTree, visitEffect, h]
  · simp [resolveTree, visitEffect, h]
  · have hacc := hclaimed.mpr h
    simp [resolveTree, visitEffect, hall, hacc]

/-- One walked source: the walk shows of the file what `ResolveFileInfo` finds. -/
theorem observe_scanTree (hvalid : fs.Valid) (hat : fs.at? path = some (.file data))
    (hmd : isMarkdown path = true) {earlier : List FileSource} {source : FileSource} {root : Path}
    (hroot : source.treeRoot = some root)
    (hagrees : TreeAgrees fs rules getSourceType earlier source path) {s : ScanState}
    (hs : s.running = (rules.isGitRepo && earlier.all (survives fs rules getSourceType)))
    (hclaimed : (observeFile project path s).2 = true ↔
      ∃ claimant ∈ earlier, Claims fs rules getSourceType path claimant) :
    observeFile project path (scanTree fs rules getSourceType project s source root) =
      resolveTree fs rules getSourceType project path data (observeFile project path s) source root := by
  have hobserves := @observes_visitFile fs rules project path data source
    (getSourceType source.typeName) root
  rw [scanTree]
  by_cases hpre : root <+: path
  · obtain ⟨rest, rfl⟩ := hpre
    rw [FileTree.at?_append] at hat
    obtain ⟨tree, htreeAt, hfile⟩ := Option.bind_eq_some_iff.mp hat
    have hstill : ∀ dir, (s.running && (FileTree.comesBefore
          (enters fs rules (getSourceType source.typeName) root true) root tree (dir.drop root.length)).all
            fun before => !kills fs rules root before) =
        stillRuns fs rules getSourceType earlier (getSourceType source.typeName) root dir := by
      intro dir
      rw [stillRuns, htreeAt, hs]
    have hwalk := hobserves.observe_walk (flagged_enterDir source (getSourceType source.typeName) root)
      (s := s) (hvalid.at? htreeAt) hfile rfl
    simp only [hstill] at hwalk
    rw [htreeAt]
    refine hwalk.trans ?_
    -- the file has no entry, or both leave it out, or the condition holds of the way to it
    rcases hagrees root hroot rest rfl with hnone | ⟨dir, hdir, hboth⟩ | ⟨hne, hrootOk, hbelowOk⟩
    · obtain ⟨hresolve, hvisit⟩ := @eq_of_noEntry fs rules getSourceType project _ data earlier source root _ hnone hclaimed
      rw [hresolve, hvisit, ite_self]
    · rw [resolveTree_of_bothExclude hdir hboth, if_neg]
      rw [List.all_eq_true]
      intro hall
      have hentered := hall dir (mem_way_of_mem_below hdir)
      rw [enters_of_bothExclude (ne_root_of_mem_below hdir) hboth] at hentered
      exact Bool.false_ne_true hentered
    rcases List.eq_nil_or_concat rest with rfl | ⟨init, name, rfl⟩
    · -- the source root is the file
      obtain ⟨hnested, hignored, hskipped⟩ := @excluded_root fs rules root (getSourceType source.typeName)
      rw [resolveTree_eq_visitEffect (.inr (List.append_nil root)) hmd]
      · rfl
      · rwa [List.append_nil]
      · rwa [List.append_nil]
      · rwa [List.append_nil]
    · rw [List.concat_eq_append] at *
      obtain ⟨hnested, hignored, hskipped⟩ := @excluded_eq fs rules _ root init name hne
        (getSourceType source.typeName) rfl
      -- the walk can only be running still where the project is a repository
      have hrepo : ∀ dir, stillRuns fs rules getSourceType earlier (getSourceType source.typeName) root dir = true →
          rules.isGitRepo = true := by
        intro dir hruns
        rw [stillRuns, Bool.and_eq_true, Bool.and_eq_true] at hruns
        exact hruns.1.1
      rw [List.dropLast_concat] at hbelowOk
      rw [all_enters (hrootOk (by simp)) hrepo hbelowOk, ← hnested, ← hignored, ← hskipped]
      by_cases hexcluded : isUnderNestedGitRepo fs (root ++ (init ++ [name])) root = true ∨
          isAncestorDirGitIgnored rules (root ++ (init ++ [name])) root = true ∨
          hasSkippedDir (rel root (root ++ (init ++ [name]))) (getSourceType source.typeName) = true
      · rw [resolveTree_of_excluded hexcluded, if_neg]
        rcases hexcluded with h | h | h
        · simp [h]
        · simp [h]
        · simp [h]
      · simp only [not_or, Bool.not_eq_true] at hexcluded
        obtain ⟨hnested', hignored', hskipped'⟩ := hexcluded
        rw [resolveTree_eq_visitEffect (.inl (isBelow_append hne (by simp))) hmd hnested' hignored' hskipped',
          hnested', hignored', hskipped']
        rfl
  · rw [resolveTree_of_not_isPrefix hpre]
    rcases hat' : fs.at? root with _ | tree
    · rfl
    · exact hobserves.walk_of_not_isPrefix hpre (hvalid.at? hat') s

/-- The scan of a source that lists its files claims the file once. -/
theorem observe_scanListed (hat : fs.at? path = some (.file data)) (hmd : isMarkdown path = true)
    (source : FileSource) (files : List Path) (s : ScanState) :
    observeFile project path (files.foldl (scanListed fs project source) s) =
      if files.contains path && !(observeFile project path s).2 then
        ((observeFile project path s).1 ++ [listedEntry project source path data []], true)
      else observeFile project path s := by
  induction files generalizing s with
  | nil => rfl
  | cons q files ih =>
    rw [List.foldl_cons, ih]
    by_cases hq : q = path
    · subst hq
      have hcontains : (q :: files).contains q = true := by simp
      cases hclaimed : (observeFile project q s).2 with
      | true =>
        have hseen : s.seen.contains (rel project.path q) = true := hclaimed
        have hsame : scanListed fs project source s q = s := by
          simp only [scanListed, hat, hmd, hseen, Bool.not_true, Bool.false_or, if_true]
        rw [hsame, hclaimed, Bool.not_true, Bool.and_false, Bool.and_false]
      | false =>
        have hseen : s.seen.contains (rel project.path q) = false := hclaimed
        have hadd : observeFile project q (scanListed fs project source s q) =
            ((observeFile project q s).1 ++ [listedEntry project source q data []], true) := by
          simp only [scanListed, hat, hmd, hseen, Bool.not_true, Bool.false_or, Bool.false_eq_true,
            if_false, observeFile, List.filter_append]
          simp [listedEntry]
        rw [hadd, hcontains]
        simp
    · have hrel : rel project.path q ≠ rel project.path path := fun h => hq (rel_injective _ h)
      have hsame : observeFile project path (scanListed fs project source s q) =
          observeFile project path s := by
        rw [scanListed]
        split
        · split
          · rfl
          · rw [observeFile, observeFile, List.filter_append, Prod.mk.injEq]
            exact ⟨by simp [listedEntry, hrel], by simp [hrel.symm]⟩
        · rfl
      have hcontains : (q :: files).contains path = files.contains path := by
        have hne : path ≠ q := fun h => hq h.symm
        simp [hne]
      rw [hsame, hcontains]

theorem running_scanListed (source : FileSource) (files : List Path) (s : ScanState) :
    (files.foldl (scanListed fs project source) s).running = s.running := by
  induction files generalizing s with
  | nil => rfl
  | cons q files ih =>
    rw [List.foldl_cons, ih, scanListed]
    split
    · split <;> rfl
    · rfl

/-- The process after the scan of a source. -/
theorem running_scanSource (s : ScanState) (source : FileSource) :
    (scanSource fs rules getSourceType project s source).running = (s.running && survives fs rules getSourceType source) := by
  rcases hroot : source.treeRoot with _ | root
  · rw [survives, hroot, Bool.and_true]
    cases hkind : source.kind with
    | thoughts | tree =>
      simp only [FileSource.treeRoot, hkind] at hroot
      simp only [scanSource, hkind, hroot]
    | files =>
      simp only [scanSource, hkind]
      exact running_scanListed source source.files s
    | unknown => simp only [scanSource, hkind]
  · rw [scanSource_of_treeRoot hroot, survives, hroot, scanTree]
    dsimp only
    cases fs.at? root with
    | none => rw [Bool.and_true]
    | some tree => exact (flagged_enterDir source (getSourceType source.typeName) root).flag_walk tree root s

theorem resolveTree_snd {source : FileSource} {root : Path} (hroot : source.treeRoot = some root)
    (acc : List FileInfo × Bool) :
    (resolveTree fs rules getSourceType project path data acc source root).2 = true ↔
      acc.2 = true ∨ Claims fs rules getSourceType path source := by
  have hfiles : source.kind ≠ .files := by
    intro hkind
    simp [FileSource.treeRoot, hkind] at hroot
  have hclaims : Claims fs rules getSourceType path source ↔ source.isAllMarkdown = false ∧
      (isBelow root path = true ∨ path = root) ∧ isUnderNestedGitRepo fs path root = false ∧
      isAncestorDirGitIgnored rules path root = false ∧
      hasSkippedDir (rel root path) (getSourceType source.typeName) = false ∧
      hasSibling fs (getSourceType source.typeName) path = true ∧
      classify (getSourceType source.typeName) (rel root path) ≠ none := by
    simp [Claims, hroot, hfiles]
  rw [hclaims, resolveTree]
  -- one case for each test of `resolveTree`, in its order
  split
  · rename_i h
    have hout : ¬ (isBelow root path = true ∨ path = root) := by simpa using h
    simp [hout]
  · rename_i h
    have hin : isBelow root path = true ∨ path = root := by
      by_contra hout
      exact h (by simpa using hout)
    split
    · rename_i hnested
      simp [hnested]
    · split
      · rename_i hignored
        simp [hignored]
      · split
        · rename_i hclaimed
          rw [Bool.and_eq_true] at hclaimed
          simp [hclaimed.2]
        · split
          · rename_i hskipped
            simp [hskipped]
          · split
            · rename_i hsibling
              simp [Bool.not_eq_true' _ ▸ hsibling]
            · rename_i hnested hignored _ hskipped hsibling
              simp only [Bool.not_eq_true, Bool.not_eq_false'] at hnested hignored hskipped hsibling
              rcases classify (getSourceType source.typeName) (rel root path) with _ | fileType
              · simp
              · cases source.isAllMarkdown <;> simp [hin, hnested, hignored, hskipped, hsibling]

/-- `typedClaimed` after a source. -/
theorem resolveSource_snd (acc : List FileInfo × Bool) (source : FileSource) :
    (resolveSource fs rules getSourceType project path data acc source).2 = true ↔
      acc.2 = true ∨ Claims fs rules getSourceType path source := by
  rcases hroot : source.treeRoot with _ | root
  · cases hkind : source.kind with
    | thoughts | tree =>
      have hrootPath : source.rootPath = none := by simpa only [FileSource.treeRoot, hkind] using hroot
      simp [resolveSource, Claims, hroot, hkind, hrootPath]
    | unknown => simp [resolveSource, Claims, hroot, hkind]
    | files =>
      simp only [resolveSource, Claims, hroot, hkind]
      by_cases hlisted : path ∈ source.files
      · cases source.isAllMarkdown <;> cases hacc : acc.2 <;> simp [hlisted, hacc]
      · simp [hlisted]
  · rw [resolveSource_of_treeRoot hroot, resolveTree_snd hroot]

/-- One source: the scan shows of the file what `ResolveFileInfo` finds. -/
theorem observe_scanSource (hvalid : fs.Valid) (hat : fs.at? path = some (.file data))
    (hmd : isMarkdown path = true) {earlier : List FileSource} {source : FileSource}
    (htree : TreeAgrees fs rules getSourceType earlier source path)
    (hlist : ListAgrees fs rules getSourceType earlier source path data) {s : ScanState}
    (hs : s.running = (rules.isGitRepo && earlier.all (survives fs rules getSourceType)))
    (hclaimed : (observeFile project path s).2 = true ↔
      ∃ claimant ∈ earlier, Claims fs rules getSourceType path claimant) :
    observeFile project path (scanSource fs rules getSourceType project s source) =
      resolveSource fs rules getSourceType project path data (observeFile project path s) source := by
  rcases hroot : source.treeRoot with _ | root
  · cases hkind : source.kind with
    | thoughts | tree =>
      simp only [FileSource.treeRoot, hkind] at hroot
      simp only [scanSource, resolveSource, hkind, hroot]
    | unknown => simp only [scanSource, resolveSource, hkind]
    | files =>
      simp only [scanSource, resolveSource, hkind]
      rw [observe_scanListed hat hmd]
      by_cases hlisted : path ∈ source.files
      · obtain ⟨hall, htitle⟩ := hlist hkind hlisted
        have hcontains : source.files.contains path = true := by simpa using hlisted
        rw [hall, hcontains]
        cases hseen : (observeFile project path s).2 with
        | true => rfl
        | false =>
          have htitle : extractTitle data.content = [] := htitle.resolve_left fun h =>
            Bool.false_ne_true (hseen.symm.trans (hclaimed.mpr h))
          rw [htitle]
          rfl
      · have hcontains : source.files.contains path = false := by simpa using hlisted
        rw [hcontains]
        simp
  · rw [scanSource_of_treeRoot hroot, resolveSource_of_treeRoot hroot]
    exact observe_scanTree hvalid hat hmd hroot htree hs hclaimed

/-- The sources one after the other. -/
theorem observe_foldl_scanSource (hvalid : fs.Valid) (hat : fs.at? path = some (.file data))
    (hmd : isMarkdown path = true) {later : List FileSource} {earlier : List FileSource}
    (hagrees : ∀ before source after, later = before ++ source :: after →
      TreeAgrees fs rules getSourceType (earlier ++ before) source path ∧
        ListAgrees fs rules getSourceType (earlier ++ before) source path data) {s : ScanState}
    (hs : s.running = (rules.isGitRepo && earlier.all (survives fs rules getSourceType)))
    (hclaimed : (observeFile project path s).2 = true ↔
      ∃ claimant ∈ earlier, Claims fs rules getSourceType path claimant) :
    observeFile project path (later.foldl (scanSource fs rules getSourceType project) s) =
      later.foldl (resolveSource fs rules getSourceType project path data) (observeFile project path s) := by
  induction later generalizing earlier s with
  | nil => rfl
  | cons source later ih =>
    obtain ⟨htree, hlist⟩ := hagrees [] source later rfl
    rw [List.append_nil] at htree hlist
    have hobserve := observe_scanSource hvalid hat hmd htree hlist hs hclaimed
    rw [List.foldl_cons, List.foldl_cons, ← hobserve]
    refine @ih (earlier ++ [source]) (fun before next after hlater => ?_) _ ?_ ?_
    · rw [List.append_assoc]
      exact hagrees (source :: before) next after (by rw [hlater]; rfl)
    · rw [running_scanSource, hs, List.all_append, List.all_cons, List.all_nil, Bool.and_true, Bool.and_assoc]
    · rw [hobserve, resolveSource_snd, hclaimed]
      simp [or_and_right, exists_or]

/-- Nothing is resolved from sources that do not contain the file. -/
theorem foldl_resolveSource_of_isApart {sources : List FileSource} (h : ∀ source ∈ sources, source.IsApart path)
    (acc : List FileInfo × Bool) :
    sources.foldl (resolveSource fs rules getSourceType project path data) acc = acc := by
  induction sources generalizing acc with
  | nil => rfl
  | cons source sources ih =>
    obtain ⟨⟨htree, hfiles⟩, hrest⟩ := List.forall_mem_cons.mp h
    rw [List.foldl_cons, ih hrest]
    rcases hroot : source.treeRoot with _ | root
    · cases hkind : source.kind with
      | thoughts | tree =>
        simp only [FileSource.treeRoot, hkind] at hroot
        simp only [resolveSource, hkind, hroot]
      | unknown => simp only [resolveSource, hkind]
      | files => simp [resolveSource, hkind, hfiles hkind]
    · rw [resolveSource_of_treeRoot hroot, resolveTree_of_not_isPrefix (htree root hroot)]

end Agreement

/-- For a Markdown file, `ResolveFileInfo` has the entries of the scan, unless a rule that only one of them
has matters for the file. -/
theorem resolveFileInfo_perm_scan (fs : FileTree FileData) (rules : IgnoreRules)
    (getSourceType : Text → Option SourceType) (project : Project) (path : Path) (data : FileData)
    (hvalid : fs.Valid) (hat : fs.at? path = some (.file data)) (hmd : isMarkdown path = true)
    (hagrees : ResolveAgrees fs rules getSourceType project path data) :
    (resolveFileInfo fs rules getSourceType project path).Perm
      ((scanProjectSources fs rules getSourceType project).filter fun file =>
        file.fullPath = rel project.path path) := by
  have hobserve := @observe_foldl_scanSource fs rules getSourceType project path data hvalid hat hmd project.sources []
    hagrees.sources { running := rules.isGitRepo } (by simp) (by simp [observeFile])
  have hresolve : resolveFileInfo fs rules getSourceType project path =
      (project.sources.foldl (resolveSource fs rules getSourceType project path data) ([], false)).1 := by
    simp only [resolveFileInfo, hmd, hat]
    rcases hagrees.inside with hinside | hapart
    · rw [hinside, if_neg Bool.false_ne_true]
    · rw [foldl_resolveSource_of_isApart hapart, ite_self]
  rw [hresolve]
  have hfiles := congrArg Prod.fst hobserve
  rw [show ([], false) = observeFile project path { running := rules.isGitRepo } from rfl, ← hfiles]
  exact ((List.perm_insertionSort _ _).filter _).symm

/-- A project `p` with a file in `d`, one in its `.git`, one in `dist`, and a submodule `sub`. -/
def sampleTree : FileTree FileData :=
  .dir (.cons ['p'] (.dir
    (.cons ['.', 'g', 'i', 't'] (.dir (.cons ['n', '.', 'm', 'd'] (.file ⟨[], 0⟩) .nil))
    (.cons ['d'] (.dir (.cons ['a', '.', 'm', 'd'] (.file ⟨['#', ' ', 'A'], 1⟩) .nil))
    (.cons ['d', 'i', 's', 't'] (.dir (.cons ['a', '.', 'm', 'd'] (.file ⟨[], 2⟩) .nil))
    (.cons ['s', 'u', 'b'] (.dir (.cons ['.', 'g', 'i', 't'] (.file ⟨[], 3⟩) (.cons ['x'] (.dir .nil) .nil)))
      .nil))))) .nil)

/-- The files of `d` by name, and all Markdown files. -/
def sampleSources : List FileSource :=
  [⟨['d'], .tree, ['d'], some [['p'], ['d']], [], false⟩,
    ⟨allMarkdown, .tree, allMarkdown, some [['p']], [], true⟩]

/-- A source that lists the file. -/
def sampleListed : FileSource := ⟨['f'], .files, ['f'], none, [[['p'], ['d'], ['a', '.', 'm', 'd']]], false⟩

def sampleProject (sources : List FileSource) : Project := ⟨['p'], [['p']], sources, []⟩

/-- A repository that ignores `dist`. In the submodule git dies, but the walk does not enter it. -/
def sampleRules : IgnoreRules where
  isGitRepo := true
  answer dir :=
    if dir = [['p'], ['d', 'i', 's', 't']] then .ignored
    else if [['p'], ['s', 'u', 'b']] <+: dir then .fatal
    else .unmatched

/-- The types of the sources; one skips some directories. -/
def sampleTypes (name : Text) : Option SourceType :=
  if name = allMarkdown then some { skipDirs := ["node_modules".toList] } else none

theorem sampleTree_valid : sampleTree.Valid := by
  simp [sampleTree, FileTree.Valid, FileTree.Entries.Valid, FileTree.Entries.names]

theorem sampleSources_cases {earlier later : List FileSource} {source : FileSource}
    (h : (sampleProject sampleSources).sources = earlier ++ source :: later) :
    earlier = [] ∧ source = ⟨['d'], .tree, ['d'], some [['p'], ['d']], [], false⟩ ∨
      earlier = [⟨['d'], .tree, ['d'], some [['p'], ['d']], [], false⟩] ∧
        source = ⟨allMarkdown, .tree, allMarkdown, some [['p']], [], true⟩ := by
  rcases earlier with _ | ⟨first, _ | ⟨second, earlier⟩⟩
  · exact .inl ⟨rfl, (List.cons.inj h).1.symm⟩
  · obtain ⟨hfirst, hrest⟩ := List.cons.inj h
    exact .inr ⟨by rw [← hfirst], (List.cons.inj hrest).1.symm⟩
  · have hlength := congrArg List.length h
    simp [sampleProject, sampleSources] at hlength

/-- A file that two sources have, and one that git ignores. -/
theorem resolveFileInfo_perm_scan_two :
    (resolveFileInfo sampleTree sampleRules sampleTypes (sampleProject sampleSources)
      [['p'], ['d'], ['a', '.', 'm', 'd']]).Perm
      ((scanProjectSources sampleTree sampleRules sampleTypes (sampleProject sampleSources)).filter fun file =>
        file.fullPath = rel [['p']] [['p'], ['d'], ['a', '.', 'm', 'd']]) ∧
    (resolveFileInfo sampleTree sampleRules sampleTypes (sampleProject sampleSources)
      [['p'], ['d'], ['a', '.', 'm', 'd']]).map FileInfo.source = [['d'], allMarkdown] ∧
    (resolveFileInfo sampleTree sampleRules sampleTypes (sampleProject sampleSources)
      [['p'], ['d', 'i', 's', 't'], ['a', '.', 'm', 'd']]).Perm
      ((scanProjectSources sampleTree sampleRules sampleTypes (sampleProject sampleSources)).filter fun file =>
        file.fullPath = rel [['p']] [['p'], ['d', 'i', 's', 't'], ['a', '.', 'm', 'd']]) := by
  refine ⟨resolveFileInfo_perm_scan sampleTree sampleRules sampleTypes (sampleProject sampleSources) _
    ⟨['#', ' ', 'A'], 1⟩ sampleTree_valid rfl (by decide) ⟨.inl (by decide), ?_⟩, by decide,
    resolveFileInfo_perm_scan sampleTree sampleRules sampleTypes (sampleProject sampleSources) _
      ⟨[], 2⟩ sampleTree_valid rfl (by decide) ⟨.inl (by decide), ?_⟩⟩
  · intro earlier source later hsources
    rcases sampleSources_cases hsources with ⟨rfl, rfl⟩ | ⟨rfl, rfl⟩
    · -- the file is in the root itself
      refine ⟨fun root hroot rest hrest => .inr (.inr ?_), fun hkind => SourceKind.noConfusion hkind⟩
      obtain rfl := Option.some.inj hroot
      obtain rfl : [['a', '.', 'm', 'd']] = rest := by simpa using hrest
      exact ⟨by decide, fun _ => ⟨by decide, by decide⟩, fun dir hdir => absurd hdir List.not_mem_nil⟩
    · refine ⟨fun root hroot rest hrest => .inr (.inr ?_), fun hkind => SourceKind.noConfusion hkind⟩
      obtain rfl := Option.some.inj hroot
      obtain rfl : [['d'], ['a', '.', 'm', 'd']] = rest := by simpa using hrest
      refine ⟨by decide, fun _ => ⟨by decide, by decide⟩, fun dir hdir => ?_⟩
      obtain rfl : dir = [['p'], ['d']] := List.mem_singleton.mp hdir
      rintro (hgit | ⟨-, hnegated⟩ | ⟨-, hignored⟩)
      · exact absurd hgit (by decide)
      · exact absurd hnegated (by decide)
      · exact absurd hignored (by decide)
  · intro earlier source later hsources
    rcases sampleSources_cases hsources with ⟨rfl, rfl⟩ | ⟨rfl, rfl⟩
    · refine ⟨fun root hroot rest hrest => ?_, fun hkind => SourceKind.noConfusion hkind⟩
      obtain rfl := Option.some.inj hroot
      simp at hrest
    · -- both ask git about `dist`, and the process is running
      refine ⟨fun root hroot rest hrest => .inr (.inl ⟨[['p'], ['d', 'i', 's', 't']], ?_, ?_⟩),
        fun hkind => SourceKind.noConfusion hkind⟩
      · obtain rfl := Option.some.inj hroot
        obtain rfl : [['d', 'i', 's', 't'], ['a', '.', 'm', 'd']] = rest := by simpa using hrest
        exact List.mem_singleton.mpr rfl
      · obtain rfl := Option.some.inj hroot
        exact .inr (.inr ⟨by decide, by decide⟩)

/-- A file in `.git` is resolved, but never scanned, and a listed file has its title only when it is
resolved. -/
theorem resolveFileInfo_differs :
    ((resolveFileInfo sampleTree sampleRules sampleTypes (sampleProject (sampleSources.drop 1))
        [['p'], ['.', 'g', 'i', 't'], ['n', '.', 'm', 'd']]).map FileInfo.source = [allMarkdown] ∧
      ((scanProjectSources sampleTree sampleRules sampleTypes
        (sampleProject (sampleSources.drop 1))).filter fun file =>
          file.fullPath = rel [['p']] [['p'], ['.', 'g', 'i', 't'], ['n', '.', 'm', 'd']]) = []) ∧
    (resolveFileInfo sampleTree sampleRules sampleTypes (sampleProject [sampleListed])
        [['p'], ['d'], ['a', '.', 'm', 'd']]).map FileInfo.title = [['A']] ∧
      (scanProjectSources sampleTree sampleRules sampleTypes (sampleProject [sampleListed])).map
        FileInfo.title = [[]] := by
  exact ⟨⟨by decide, by decide⟩, by decide, by decide⟩

end Builderbot.Penpal
