import Builderbot.Git.NameStatus

/-!
# The changes of the working tree against a base

`list_working_tree_changes` of `crates/git-diff/src/diff.rs`. For a base other than HEAD, the changes from the base to
HEAD and the changes from HEAD to the working tree are put in one map by path, the second ones over the first. A change
that is put over another one is not combined with it.

`listWorkingTreeChanges_faithful_iff` says for which trees the result is the comparison of the base with the working tree.
-/

namespace Builderbot.Git

open Lib.Text

/-! ## The listing -/

/-- What git answers in a repository. -/
structure GitCli (ε : Type*) where
  /-- `status --porcelain -z` -/
  status : Except ε Text
  /-- `ls-files --others --exclude-standard -z` for a directory -/
  lsFiles : Text → Except ε Text
  /-- `diff --name-status -z` for two revisions -/
  nameStatus : Text → Text → Except ε Text
  /-- `diff --numstat -z` for a revision -/
  numstat : Text → Except ε Text

section Listing

variable {ε : Type*} (git : GitCli ε)

/-- `enrich_with_numstat`. A failure of git is only logged. -/
def enrichWithNumstat (base : Text) (files : List FileDiffSummary) : Option (List FileDiffSummary) :=
  match git.numstat base with
  | .ok output => applyNumstatOutput files output
  | .error _ => some files

/-- The loops that fill `result_map`; `none` is the panic of `unwrap`. -/
def insertFiles (files : List FileDiffSummary) (resultMap : Table PathKey FileDiffSummary) :
    Option (Table PathKey FileDiffSummary) :=
  files.foldlM (fun resultMap file => file.path.map fun path => resultMap.insert (pathKey path) file) resultMap

def headText : Text := "HEAD".toList

/-- `list_working_tree_changes`; `none` is a panic. The values of the map come in some order. -/
def listWorkingTreeChanges (base : Text) : OptionT (Except ε) (List FileDiffSummary) := do
  let output ← git.status
  let statusFiles ← parsePorcelainStatus git.lsFiles output
  if base = headText then
    OptionT.mk (.ok (enrichWithNumstat git base statusFiles))
  else
    let diffOutput ← git.nameStatus base headText
    let committedFiles ← (parseNameStatus diffOutput : Except ε _)
    -- committed changes first, and the current state over them
    let resultMap ← OptionT.mk (.ok (insertFiles committedFiles ∅))
    let resultMap ← OptionT.mk (.ok (insertFiles statusFiles resultMap))
    OptionT.mk (.ok (enrichWithNumstat git base resultMap.values))

end Listing

/-! ## Trees and their differences -/

/-- A path in a tree of git. -/
def IsTreePath (p : Text) : Prop := nul ∉ p ∧ ∀ part ∈ p.splitOn '/', part ≠ [] ∧ part ≠ ['.']

instance IsTreePath.decidable (p : Text) : Decidable (IsTreePath p) := inferInstanceAs (Decidable (_ ∧ _))

/-- The files of a tree, with what they contain. -/
structure Tree (γ : Type*) where
  files : Table Text γ
  isTreePath : ∀ p ∈ files, IsTreePath p

variable {γ : Type*}

def Tree.at (tree : Tree γ) (p : Text) : Option γ := tree.files.lookup p

variable {p : Text}

theorem Tree.isTreePath_of_at (tree : Tree γ) (h : tree.at p ≠ none) : IsTreePath p :=
  tree.isTreePath p (AList.lookup_isSome.mp (Option.isSome_iff_ne_none.mpr h))

inductive Difference where
  | added
  | deleted
  | modified
deriving DecidableEq, Repr

variable [DecidableEq γ]

/-- How two versions of a file differ. -/
def difference (old new : Option γ) : Option Difference :=
  if old = new then none
  else if old = none then some .added
  else if new = none then some .deleted
  else some .modified

/-- The summary of a difference, without counts. -/
def Difference.summary (p : Text) : Difference → FileDiffSummary
  | added => .new none (some p)
  | deleted => .new (some p) none
  | modified => .new (some p) (some p)

/-- Each difference of the trees, once, and nothing else. -/
structure Reports (lines : List (Text × Difference)) (old new : Tree γ) : Prop where
  nodup : (lines.map Prod.fst).Nodup
  mem_iff : ∀ p d, (p, d) ∈ lines ↔ difference (old.at p) (new.at p) = some d

/-- The files are the differences of the trees. -/
structure Faithful (files : List FileDiffSummary) (old new : Tree γ) : Prop where
  mem_iff : ∀ p, (∃ file ∈ files, file.path = some p) ↔ old.at p ≠ new.at p
  added_iff : ∀ file ∈ files, ∀ p, file.path = some p → (file.before = none ∧ file.after ≠ none ↔ old.at p = none)
  deleted_iff : ∀ file ∈ files, ∀ p, file.path = some p → (file.before ≠ none ∧ file.after = none ↔ new.at p = none)
  modified_iff : ∀ file ∈ files, ∀ p, file.path = some p →
    (file.before ≠ none ∧ file.after ≠ none ↔ old.at p ≠ none ∧ new.at p ≠ none ∧ old.at p ≠ new.at p)

/-! ## What git writes -/

/-- A change in the output of `diff --name-status -z`, without renames. -/
structure NameStatusLine where
  letter : Char
  path : StatusPath
  letter_mem : letter ∈ ['A', 'D', 'M', 'T']

namespace NameStatusLine

def parts (line : NameStatusLine) : List Text := [[line.letter], line.path.val]

def reported (line : NameStatusLine) : Text × Difference :=
  (line.path.val, if line.letter = 'A' then .added else if line.letter = 'D' then .deleted else .modified)

end NameStatusLine

/-- What an entry reports of its file. -/
def StatusEntry.reported (e : StatusEntry) : Text × Difference :=
  (e.path.val,
    if e.x = .untracked ∨ e.x = .added ∨ e.y = .added then .added
    else if e.x = .deleted ∨ e.y = .deleted then .deleted else .modified)

/-- An item in the output of `status --porcelain -z`, without renames. An untracked directory stands for its files. -/
inductive StatusItem where
  | entry (e : StatusEntry) (h : e.isRename = false)
  | untrackedDir (dir : Text) (files : List StatusPath) (h : nul ∉ dir)

namespace StatusItem

def encode : StatusItem → Text
  | entry e _ => e.encode
  | untrackedDir dir _ _ => '?' :: '?' :: ' ' :: (dir ++ ['/'] ++ [nul])

def reported : StatusItem → List (Text × Difference)
  | entry e _ => [e.reported]
  | untrackedDir _ files _ => files.map fun file => (file.val, .added)

end StatusItem

/-- Git answers with these lines and items; its answer about the counts may be any. -/
structure Answers {ε : Type*} (git : GitCli ε) (base : Text) (lines : List NameStatusLine) (items : List StatusItem) :
    Prop where
  nameStatus : git.nameStatus base headText = .ok (encodeParts (lines.flatMap NameStatusLine.parts))
  status : git.status = .ok (items.flatMap StatusItem.encode)
  lsFiles : ∀ dir files h, StatusItem.untrackedDir dir files h ∈ items →
    git.lsFiles (dir ++ ['/']) = .ok (encodeParts (files.map (·.val)))

/-! ## Reading what git writes -/

theorem IsTreePath.pathKey_inj {q : Text} (hp : IsTreePath p) (hq : IsTreePath q) (h : pathKey p = pathKey q) : p = q :=
  eq_of_pathKey_eq hp.2 hq.2 h

/-- A line of `--name-status` is read back. -/
theorem NameStatusLine.nameStatusFrom_parts (line : NameStatusLine) (rest : List Text) :
    nameStatusFrom (line.parts ++ rest) = line.reported.2.summary line.reported.1 :: nameStatusFrom rest := by
  obtain ⟨letter, path, hletter⟩ := line
  show nameStatusFrom ([letter] :: path.val :: rest) = _
  simp only [List.mem_cons, List.not_mem_nil, or_false] at hletter
  rw [nameStatusFrom]
  rcases hletter with rfl | rfl | rfl | rfl <;> rfl

/-- All lines are read back. -/
theorem nameStatusFrom_lines (lines : List NameStatusLine) :
    nameStatusFrom ((encodeParts (lines.flatMap NameStatusLine.parts)).splitOn nul) =
      (lines.map NameStatusLine.reported).map fun l => l.2.summary l.1 := by
  rw [splitOn_encodeParts fun part hpart => ?_]
  · induction lines with
    | nil => simp [nameStatusFrom]
    | cons line lines ih =>
      rw [List.flatMap_cons, List.append_assoc, line.nameStatusFrom_parts, ih]
      rfl
  · obtain ⟨line, -, hpart⟩ := List.mem_flatMap.mp hpart
    simp only [NameStatusLine.parts, List.mem_cons, List.not_mem_nil, or_false] at hpart
    rcases hpart with rfl | rfl
    · have hletter := line.letter_mem
      simp only [List.mem_cons, List.not_mem_nil, or_false] at hletter
      rw [List.mem_singleton]
      rcases hletter with h | h | h | h <;> rw [h] <;> decide
    · exact line.path.property.2

/-- The summary of an entry is that of the difference it reports. -/
theorem StatusEntry.summary_eq {e : StatusEntry} (h : e.isRename = false) :
    e.summary = e.reported.2.summary e.reported.1 := by
  have hold : e.oldSide = e.path.val := by
    rw [oldSide, h]
    rfl
  rw [summary, hold, reported]
  split
  · rfl
  · split
    · rfl
    · rfl

section Parsing

variable {ε : Type*} (lsFiles : Text → Except ε Text)

/-- An untracked directory is expanded into its files. -/
theorem parsePorcelainStatus_untrackedDir {dir : Text} {files : List StatusPath} (h : nul ∉ dir)
    (hls : lsFiles (dir ++ ['/']) = .ok (encodeParts (files.map (·.val)))) (s : Text) :
    parsePorcelainStatus lsFiles ((StatusItem.untrackedDir dir files h).encode ++ s) =
      ((files.map fun file => Difference.added.summary file.val) ++ ·) <$> parsePorcelainStatus lsFiles s := by
  have hpath : dir ++ ['/'] ≠ [] ∧ nul ∉ dir ++ ['/'] := by
    refine ⟨List.append_ne_nil_of_right_ne_nil _ (List.cons_ne_nil _ _), ?_⟩
    rw [List.mem_append, not_or]
    exact ⟨h, by decide⟩
  -- the record of a directory is that of its path with a slash
  have hread : readRecord '?' ('?' :: ' ' :: (dir ++ ['/'] ++ nul :: s)) = (some ⟨'?', '?', none, some (dir ++ ['/'])⟩, s) :=
    readRecord_single (by decide) ⟨dir ++ ['/'], hpath⟩ s
  have hexpand : expandUntrackedDir lsFiles (dir ++ ['/']) = .ok (files.map (·.val)) := by
    rw [expandUntrackedDir, hls]
    show Except.ok (((encodeParts (files.map (·.val))).splitOn nul).filter (· ≠ [])) = _
    rw [splitOn_encodeParts fun part hpart => ?_, List.filter_append, List.filter_eq_self.mpr fun part hpart => ?_]
    · simp
    · obtain ⟨file, -, rfl⟩ := List.mem_map.mp hpart
      exact decide_eq_true file.property.1
    · obtain ⟨file, -, rfl⟩ := List.mem_map.mp hpart
      exact file.property.2
  have hsummaries : recordSummaries lsFiles ⟨'?', '?', none, some (dir ++ ['/'])⟩ =
      .ok (files.map fun file => Difference.added.summary file.val) := by
    rw [recordSummaries, if_pos ⟨rfl, rfl⟩]
    show (if (dir ++ ['/']).getLast? = some '/' then _ else _) = _
    rw [if_pos List.getLast?_concat, hexpand]
    show Except.ok ((files.map (·.val)).map _) = _
    rw [List.map_map]
    rfl
  have hencode : (StatusItem.untrackedDir dir files h).encode ++ s = '?' :: '?' :: ' ' :: (dir ++ ['/'] ++ nul :: s) := by
    simp [StatusItem.encode]
  rw [hencode, parsePorcelainStatus, hread]
  simp only [hsummaries]
  cases parsePorcelainStatus lsFiles s with
  | error err => rfl
  | ok more => rfl

/-- All records are read back. -/
theorem parsePorcelainStatus_items {items : List StatusItem}
    (hls : ∀ dir files h, StatusItem.untrackedDir dir files h ∈ items →
      lsFiles (dir ++ ['/']) = .ok (encodeParts (files.map (·.val)))) :
    parsePorcelainStatus lsFiles (items.flatMap StatusItem.encode) =
      .ok ((items.flatMap StatusItem.reported).map fun l => l.2.summary l.1) := by
  induction items with
  | nil => simp [parsePorcelainStatus]
  | cons item items ih =>
    have ih := ih fun dir files h hmem => hls dir files h (List.mem_cons_of_mem _ hmem)
    rw [List.flatMap_cons, List.flatMap_cons, List.map_append]
    cases item with
    | entry e h =>
      show parsePorcelainStatus lsFiles (e.encode ++ _) = _
      rw [parsePorcelainStatus_single lsFiles h, ih, e.summary_eq h]
      rfl
    | untrackedDir dir files h =>
      rw [parsePorcelainStatus_untrackedDir lsFiles h (hls dir files h List.mem_cons_self), ih, StatusItem.reported,
        List.map_map]
      rfl

end Parsing

/-! ## The map -/

/-- The reported differences put into the map, one by one. -/
def overlay (lines : List (Text × Difference)) (resultMap : Table PathKey FileDiffSummary) :
    Table PathKey FileDiffSummary :=
  lines.foldl (fun resultMap l => resultMap.insert (pathKey l.1) (l.2.summary l.1)) resultMap

/-- Later lines overwrite earlier ones of the same path. -/
theorem insertFiles_eq (lines : List (Text × Difference)) (resultMap : Table PathKey FileDiffSummary) :
    insertFiles (lines.map fun l => l.2.summary l.1) resultMap = some (overlay lines resultMap) := by
  induction lines generalizing resultMap with
  | nil => rfl
  | cons l lines ih =>
    have hpath : (l.2.summary l.1).path = some l.1 := by
      rcases l.2 <;> rfl
    rw [insertFiles, List.map_cons, List.foldlM_cons, hpath]
    exact ih _

/-- No difference means the same entry. -/
theorem difference_eq_none_iff {old new : Option γ} : difference old new = none ↔ old = new := by
  rw [difference]
  constructor
  · intro hnone
    by_contra h
    rw [if_neg h] at hnone
    split_ifs at hnone
  · intro h
    rw [if_pos h]

namespace Reports

variable {lines : List (Text × Difference)} {old new : Tree γ} (h : Reports lines old new)

include h

theorem isTreePath {l : Text × Difference} (hl : l ∈ lines) : IsTreePath l.1 := by
  have hdifference := (h.mem_iff l.1 l.2).mp hl
  by_cases hold : old.at l.1 = none
  · refine new.isTreePath_of_at fun hnew => ?_
    rw [hold, hnew, difference, if_pos rfl] at hdifference
    exact Option.some_ne_none _ hdifference.symm
  · exact old.isTreePath_of_at hold

/-- No path is reported twice. -/
theorem nodup_keys : (lines.map fun l => pathKey l.1).Nodup := by
  have hmap : lines.map (fun l => pathKey l.1) = (lines.map Prod.fst).map pathKey := by
    rw [List.map_map]
    rfl
  rw [hmap]
  refine List.Nodup.map_on (fun p hp q hq heq => ?_) h.nodup
  obtain ⟨l, hl, rfl⟩ := List.mem_map.mp hp
  obtain ⟨l', hl', rfl⟩ := List.mem_map.mp hq
  exact (h.isTreePath hl).pathKey_inj (h.isTreePath hl') heq

/-- What is reported of a path is put over what the map has for it. -/
theorem lookup_overlay (hp : IsTreePath p) (resultMap : Table PathKey FileDiffSummary) :
    (overlay lines resultMap).lookup (pathKey p) =
      ((difference (old.at p) (new.at p)).map (·.summary p)).or (resultMap.lookup (pathKey p)) := by
  cases hdifference : difference (old.at p) (new.at p) with
  | some d =>
    exact Table.lookup_foldl_insert_of_mem (fun l : Text × Difference => pathKey l.1) (fun l => l.2.summary l.1)
      h.nodup_keys ((h.mem_iff p d).mpr hdifference) resultMap
  | none =>
    refine Table.lookup_foldl_insert_of_forall_ne (fun l : Text × Difference => pathKey l.1) (fun l => l.2.summary l.1)
      (fun l hl heq => ?_) resultMap
    have hpath : l.1 = p := (h.isTreePath hl).pathKey_inj hp heq
    have hsome := (h.mem_iff l.1 l.2).mp hl
    rw [hpath, hdifference] at hsome
    exact Option.some_ne_none _ hsome.symm

theorem lookup_overlay_of_forall_ne {key : PathKey} (hkey : ∀ p, IsTreePath p → pathKey p ≠ key)
    (resultMap : Table PathKey FileDiffSummary) :
    (overlay lines resultMap).lookup key =
      resultMap.lookup key :=
  Table.lookup_foldl_insert_of_forall_ne (fun l : Text × Difference => pathKey l.1) (fun l => l.2.summary l.1)
    (fun l hl => hkey l.1 (h.isTreePath hl)) resultMap

end Reports

/-- What the listing shows of a path: the later difference, and the earlier one only if there is no later one. -/
def shown (base head working : Tree γ) (p : Text) : Option Difference :=
  (difference (head.at p) (working.at p)).or (difference (base.at p) (head.at p))

variable {working base head : Tree γ}

/-- The files listed are the paths with a difference to show. -/
theorem mem_values_iff {committed status : List (Text × Difference)}
    (hcommitted : Reports committed base head) (hstatus : Reports status head working) (file : FileDiffSummary) :
    file ∈ (overlay status (overlay committed ∅)).values ↔ ∃ p d, shown base head working p = some d ∧ file = d.summary p := by
  have hlookup : ∀ p, IsTreePath p →
      (overlay status (overlay committed ∅)).lookup (pathKey p) = (shown base head working p).map (·.summary p) := by
    intro p hp
    rw [hstatus.lookup_overlay hp, hcommitted.lookup_overlay hp, AList.lookup_empty, Option.or_none, shown,
      Option.map_or]
  have htree : ∀ p d, shown base head working p = some d → IsTreePath p := by
    intro p d hd
    rcases Option.or_eq_some_iff.mp hd with hd | ⟨-, hd⟩
    · exact hstatus.isTreePath ((hstatus.mem_iff p d).mpr hd)
    · exact hcommitted.isTreePath ((hcommitted.mem_iff p d).mpr hd)
  rw [Table.mem_values]
  constructor
  · rintro ⟨key, hkey⟩
    by_cases hp : ∃ p, IsTreePath p ∧ pathKey p = key
    · obtain ⟨p, hp, rfl⟩ := hp
      rw [hlookup p hp] at hkey
      obtain ⟨d, hd, rfl⟩ := Option.map_eq_some_iff.mp hkey
      exact ⟨p, d, hd, rfl⟩
    · have hne : ∀ p, IsTreePath p → pathKey p ≠ key := fun p hpath heq => hp ⟨p, hpath, heq⟩
      rw [hstatus.lookup_overlay_of_forall_ne hne, hcommitted.lookup_overlay_of_forall_ne hne,
        AList.lookup_empty] at hkey
      exact absurd hkey.symm (Option.some_ne_none _)
  · rintro ⟨p, d, hd, rfl⟩
    refine ⟨pathKey p, ?_⟩
    rw [hlookup p (htree p d hd), hd]
    rfl

/-! ## The counts -/

/-- The paths of a file. -/
def FileDiffSummary.sides (file : FileDiffSummary) : Option Text × Option Text := (file.before, file.after)

/-- The counts change nothing else. -/
theorem applyNumstatOutput_sides {files : List FileDiffSummary} (h : ∀ file ∈ files, file.path ≠ none) (output : Text) :
    ∃ enriched, applyNumstatOutput files output = some enriched ∧
      enriched.map FileDiffSummary.sides = files.map FileDiffSummary.sides := by
  rw [applyNumstatOutput]
  generalize parseNumstat output = stats
  induction files with
  | nil => exact ⟨[], rfl, rfl⟩
  | cons file files ih =>
    obtain ⟨hfile, hfiles⟩ := List.forall_mem_cons.mp h
    obtain ⟨enriched, henriched, hsides⟩ := ih hfiles
    obtain ⟨path, hpath⟩ := Option.ne_none_iff_exists'.mp hfile
    have hwith : ∃ file', withStats stats file = some file' ∧ file'.sides = file.sides := by
      rw [withStats, hpath, Option.map_some]
      refine ⟨_, rfl, ?_⟩
      split
      · rfl
      · rfl
    obtain ⟨file', hfile', hside⟩ := hwith
    refine ⟨file' :: enriched, ?_, ?_⟩
    · rw [List.mapM_cons, hfile', henriched]
      rfl
    · rw [List.map_cons, List.map_cons, hside, hsides]

/-- The counts change neither the files nor their sides. -/
theorem enrichWithNumstat_sides {ε : Type*} (git : GitCli ε) (base : Text) {files : List FileDiffSummary}
    (h : ∀ file ∈ files, file.path ≠ none) :
    ∃ enriched, enrichWithNumstat git base files = some enriched ∧
      enriched.map FileDiffSummary.sides = files.map FileDiffSummary.sides := by
  rw [enrichWithNumstat]
  cases git.numstat base with
  | ok output => exact applyNumstatOutput_sides h output
  | error err => exact ⟨files, rfl, rfl⟩

/-! ## The comparison with the trees -/

theorem Difference.path_summary (d : Difference) (p : Text) : (d.summary p).path = some p := by
  cases d <;> rfl

/-- The summary of a difference says which side has the file. -/
theorem summary_of_difference {old new : Option γ} {d : Difference} (p : Text) (h : difference old new = some d) :
    ((d.summary p).before = none ∧ (d.summary p).after ≠ none ↔ old = none) ∧
      ((d.summary p).before ≠ none ∧ (d.summary p).after = none ↔ new = none) ∧
      ((d.summary p).before ≠ none ∧ (d.summary p).after ≠ none ↔ old ≠ none ∧ new ≠ none ∧ old ≠ new) := by
  rw [difference] at h
  split_ifs at h with heq hold hnew
  · obtain rfl := Option.some.inj h
    subst hold
    simpa [Difference.summary, FileDiffSummary.new] using Ne.symm heq
  · obtain rfl := Option.some.inj h
    simp [Difference.summary, FileDiffSummary.new, hold, hnew]
  · obtain rfl := Option.some.inj h
    simp [Difference.summary, FileDiffSummary.new, hold, hnew, heq]

/-- Over a difference of its own, a path is shown as it should be exactly if the base differs from the working tree and
has the file just if HEAD has it. -/
theorem shown_eq_iff : shown base head working p = difference (base.at p) (working.at p) ↔
      head.at p = working.at p ∨ (base.at p ≠ working.at p ∧ (base.at p = none ↔ head.at p = none)) := by
  rw [shown]
  generalize base.at p = b, head.at p = h, working.at p = w
  by_cases hw : h = w
  · subst hw
    rw [difference_eq_none_iff.mpr rfl, Option.none_or]
    exact ⟨fun _ => Or.inl rfl, fun _ => rfl⟩
  · have hor : (difference h w).or (difference b h) = difference h w :=
      Option.or_of_isSome (Option.isSome_iff_ne_none.mpr (difference_eq_none_iff.not.mpr hw))
    rw [hor]
    simp only [difference, hw, if_false, false_or]
    split_ifs <;> simp_all

section Faithful

variable {base head working : Tree γ} {files : List FileDiffSummary}
  (h : ∀ sides, sides ∈ files.map FileDiffSummary.sides ↔
    ∃ p d, shown base head working p = some d ∧ sides = (d.summary p).sides)

include h

/-- A listed file is shown. -/
theorem exists_shown {file : FileDiffSummary} (hfile : file ∈ files) (hp : file.path = some p) :
    ∃ d, shown base head working p = some d ∧ file.sides = (d.summary p).sides := by
  obtain ⟨q, d, hd, hsides⟩ := (h file.sides).mp (List.mem_map_of_mem hfile)
  have hbefore : file.before = (d.summary q).before := congrArg Prod.fst hsides
  have hafter : file.after = (d.summary q).after := congrArg Prod.snd hsides
  have hpath : file.path = (d.summary q).path := by
    rw [FileDiffSummary.path, FileDiffSummary.path, hbefore, hafter]
  rw [hp, d.path_summary, Option.some_inj] at hpath
  subst hpath
  exact ⟨d, hd, hsides⟩

/-- What is shown is listed. -/
theorem exists_file {d : Difference} (hd : shown base head working p = some d) :
    ∃ file ∈ files, file.path = some p ∧ file.sides = (d.summary p).sides := by
  obtain ⟨file, hfile, hsides⟩ := List.mem_map.mp ((h _).mpr ⟨p, d, hd, rfl⟩)
  have hbefore : file.before = (d.summary p).before := congrArg Prod.fst hsides
  have hafter : file.after = (d.summary p).after := congrArg Prod.snd hsides
  refine ⟨file, hfile, ?_, hsides⟩
  rw [FileDiffSummary.path, hbefore, hafter]
  exact d.path_summary p

/-- The listing is right exactly if what is shown is the difference. -/
theorem faithful_iff : Faithful files base working ↔
    ∀ p, shown base head working p = difference (base.at p) (working.at p) := by
  constructor
  · intro hfaithful p
    cases hd : shown base head working p with
    | none =>
      -- nothing is listed, so there must be nothing to list
      have heq : base.at p = working.at p := by
        by_contra hne
        obtain ⟨file, hfile, hp⟩ := (hfaithful.mem_iff p).mpr hne
        obtain ⟨d, hsome, -⟩ := exists_shown h hfile hp
        rw [hd] at hsome
        exact Option.some_ne_none _ hsome.symm
      rw [difference_eq_none_iff.mpr heq]
    | some d =>
      obtain ⟨file, hfile, hp, hsides⟩ := exists_file h hd
      have hne := (hfaithful.mem_iff p).mp ⟨file, hfile, hp⟩
      have hadded := hfaithful.added_iff file hfile p hp
      have hdeleted := hfaithful.deleted_iff file hfile p hp
      have hbefore : file.before = (d.summary p).before := congrArg Prod.fst hsides
      have hafter : file.after = (d.summary p).after := congrArg Prod.snd hsides
      rw [hbefore, hafter] at hadded hdeleted
      rw [difference, if_neg hne]
      cases d with
      | added =>
        rw [if_pos (hadded.mp ⟨rfl, Option.some_ne_none p⟩)]
      | deleted =>
        rw [if_neg fun hbase => (hadded.mpr hbase).2 rfl, if_pos (hdeleted.mp ⟨Option.some_ne_none p, rfl⟩)]
      | modified =>
        rw [if_neg fun hbase => Option.some_ne_none p (hadded.mpr hbase).1,
          if_neg fun hworking => Option.some_ne_none p (hdeleted.mpr hworking).2]
  · intro hshown
    have hsummary : ∀ file ∈ files, ∀ p, file.path = some p →
        (file.before = none ∧ file.after ≠ none ↔ base.at p = none) ∧
          (file.before ≠ none ∧ file.after = none ↔ working.at p = none) ∧
          (file.before ≠ none ∧ file.after ≠ none ↔
            base.at p ≠ none ∧ working.at p ≠ none ∧ base.at p ≠ working.at p) := by
      intro file hfile p hp
      obtain ⟨d, hd, hsides⟩ := exists_shown h hfile hp
      have hbefore : file.before = (d.summary p).before := congrArg Prod.fst hsides
      have hafter : file.after = (d.summary p).after := congrArg Prod.snd hsides
      rw [hbefore, hafter]
      exact summary_of_difference p ((hshown p).symm.trans hd)
    refine ⟨fun p => ⟨?_, fun hne => ?_⟩, ?_, ?_, ?_⟩
    · rintro ⟨file, hfile, hp⟩ heq
      obtain ⟨d, hd, -⟩ := exists_shown h hfile hp
      rw [hshown p, difference_eq_none_iff.mpr heq] at hd
      exact Option.some_ne_none _ hd.symm
    · obtain ⟨d, hd⟩ := Option.ne_none_iff_exists'.mp (difference_eq_none_iff.not.mpr hne)
      obtain ⟨file, hfile, hp, -⟩ := exists_file h ((hshown p).trans hd)
      exact ⟨file, hfile, hp⟩
    · exact fun file hfile p hp => (hsummary file hfile p hp).1
    · exact fun file hfile p hp => (hsummary file hfile p hp).2.1
    · exact fun file hfile p hp => (hsummary file hfile p hp).2.2

end Faithful

/-! ## The results -/

/-- The listing for a base other than HEAD, from what git reports of the trees. -/
theorem exists_listing {ε : Type*} {git : GitCli ε} {baseRev : Text} (hrev : baseRev ≠ headText)
    {lines : List NameStatusLine} {items : List StatusItem}
    (hanswers : Answers git baseRev lines items)
    (hcommitted : Reports (lines.map NameStatusLine.reported) base head)
    (hstatus : Reports (items.flatMap StatusItem.reported) head working) :
    ∃ files, (listWorkingTreeChanges git baseRev).run = .ok (some files) ∧
      (Faithful files base working ↔ ∀ p, shown base head working p = difference (base.at p) (working.at p)) := by
  have hvalues := mem_values_iff hcommitted hstatus
  have hpath : ∀ file ∈ (overlay (items.flatMap StatusItem.reported)
      (overlay (lines.map NameStatusLine.reported) ∅)).values, file.path ≠ none := by
    intro file hfile
    obtain ⟨p, d, -, rfl⟩ := (hvalues file).mp hfile
    rw [d.path_summary]
    exact Option.some_ne_none p
  obtain ⟨files, hfiles, hsides⟩ := enrichWithNumstat_sides git baseRev hpath
  refine ⟨files, ?_, faithful_iff fun sides => ?_⟩
  -- the three answers of git are parsed one after the other
  · have hparse := parsePorcelainStatus_items git.lsFiles hanswers.lsFiles
    have hname : (parseNameStatus (encodeParts (lines.flatMap NameStatusLine.parts)) : Except ε _) =
        .ok ((lines.map NameStatusLine.reported).map fun l => l.2.summary l.1) :=
      congrArg Except.ok (nameStatusFrom_lines lines)
    rw [listWorkingTreeChanges, hanswers.status, hanswers.nameStatus]
    show (do
      let statusFiles ← (parsePorcelainStatus git.lsFiles (items.flatMap StatusItem.encode) : OptionT (Except ε) _)
      _ : OptionT (Except ε) _).run = _
    rw [hparse]
    show (if baseRev = headText then _ else _ : OptionT (Except ε) _).run = _
    rw [if_neg hrev]
    show (do
      let committedFiles ← ((parseNameStatus (encodeParts (lines.flatMap NameStatusLine.parts)) : Except ε _) :
        OptionT (Except ε) _)
      _ : OptionT (Except ε) _).run = _
    rw [hname]
    show (do
      let resultMap ← OptionT.mk (.ok (insertFiles _ ∅))
      _ : OptionT (Except ε) _).run = _
    rw [insertFiles_eq]
    show (do
      let resultMap ← OptionT.mk (.ok (insertFiles _ (overlay (lines.map NameStatusLine.reported) ∅)))
      _ : OptionT (Except ε) _).run = _
    rw [insertFiles_eq]
    exact congrArg Except.ok hfiles
  · rw [hsides, List.mem_map]
    constructor
    · rintro ⟨file, hfile, rfl⟩
      obtain ⟨p, d, hd, rfl⟩ := (hvalues file).mp hfile
      exact ⟨p, d, hd, rfl⟩
    · rintro ⟨p, d, hd, rfl⟩
      exact ⟨_, (hvalues _).mpr ⟨p, d, hd, rfl⟩, rfl⟩

/-- The listing is the comparison of the base with the working tree just if, where the working tree differs from HEAD,
the base differs from the working tree as well, and has the file just if HEAD has it. -/
theorem listWorkingTreeChanges_faithful_iff {ε : Type*} {git : GitCli ε} {baseRev : Text} (hrev : baseRev ≠ headText)
    {base head working : Tree γ} {lines : List NameStatusLine} {items : List StatusItem}
    (hanswers : Answers git baseRev lines items)
    (hcommitted : Reports (lines.map NameStatusLine.reported) base head)
    (hstatus : Reports (items.flatMap StatusItem.reported) head working) :
    ∃ files, (listWorkingTreeChanges git baseRev).run = .ok (some files) ∧
      (Faithful files base working ↔
        ∀ p, head.at p = working.at p ∨ (base.at p ≠ working.at p ∧ (base.at p = none ↔ head.at p = none))) := by
  obtain ⟨files, hrun, hfaithful⟩ := exists_listing hrev hanswers hcommitted hstatus
  exact ⟨files, hrun, hfaithful.trans (forall_congr' fun p => shown_eq_iff)⟩

/-! ### A file that is committed and then deleted -/

def notes : StatusPath := ⟨"notes".toList, by decide⟩

def noFiles : Tree ℕ := ⟨∅, fun p hp => absurd hp (AList.notMem_empty p)⟩

def onlyNotes : Tree ℕ where
  files := AList.singleton notes.val 0
  isTreePath p hp := by
    have hpath : p = notes.val := List.mem_singleton.mp hp
    subst hpath
    decide

def addedNotes : NameStatusLine := ⟨'A', notes, by decide⟩

def deletedNotes : StatusItem :=
  .entry ⟨.unmodified, .deleted, rfl, notes, notes, by decide, by decide⟩ rfl

def notesGit : GitCli Unit where
  status := .ok ([deletedNotes].flatMap StatusItem.encode)
  lsFiles _ := .ok []
  nameStatus _ _ := .ok (encodeParts ([addedNotes].flatMap NameStatusLine.parts))
  numstat _ := .ok []

theorem notesGit_answers : Answers notesGit "main".toList [addedNotes] [deletedNotes] where
  nameStatus := rfl
  status := rfl
  lsFiles dir files h hmem := by
    rw [List.mem_singleton, deletedNotes] at hmem
    cases hmem

theorem onlyNotes_at (p : Text) : onlyNotes.at p = if p = notes.val then some 0 else none := by
  rw [Tree.at, onlyNotes]
  split
  next hp => rw [hp]; rfl
  next hp => exact AList.lookup_eq_none.mpr fun hmem => hp (List.mem_singleton.mp hmem)

theorem reports_addedNotes : Reports ([addedNotes].map NameStatusLine.reported) noFiles onlyNotes where
  nodup := by decide
  mem_iff p d := by
    show (p, d) ∈ [(notes.val, Difference.added)] ↔ difference none (onlyNotes.at p) = some d
    rw [List.mem_singleton, Prod.mk.injEq, onlyNotes_at, eq_comm (b := Difference.added)]
    by_cases hp : p = notes.val
    · simp [hp, difference]
    · simp [hp, difference]

theorem reports_deletedNotes : Reports ([deletedNotes].flatMap StatusItem.reported) onlyNotes noFiles where
  nodup := by decide
  mem_iff p d := by
    show (p, d) ∈ [(notes.val, Difference.deleted)] ↔ difference (onlyNotes.at p) none = some d
    rw [List.mem_singleton, Prod.mk.injEq, onlyNotes_at, eq_comm (b := Difference.deleted)]
    by_cases hp : p = notes.val
    · simp [hp, difference]
    · simp [hp, difference]

/-- No commit has changed the file that is deleted. -/
def deletedGit : GitCli Unit := { notesGit with nameStatus := fun _ _ => .ok [] }

theorem listWorkingTreeChanges_faithful_iff_notes :
    ∃ files, (listWorkingTreeChanges deletedGit "main".toList).run = .ok (some files) ∧ Faithful files onlyNotes noFiles := by
  have hanswers : Answers deletedGit "main".toList [] [deletedNotes] := ⟨rfl, rfl, notesGit_answers.lsFiles⟩
  have hsame : Reports (([] : List NameStatusLine).map NameStatusLine.reported) onlyNotes onlyNotes :=
    ⟨List.nodup_nil, fun p d => by simp [difference_eq_none_iff.mpr]⟩
  obtain ⟨files, hrun, hfaithful⟩ := listWorkingTreeChanges_faithful_iff (by decide) hanswers hsame reports_deletedNotes
  refine ⟨files, hrun, hfaithful.mpr fun p => ?_⟩
  by_cases hp : onlyNotes.at p = none
  · exact .inl hp
  · exact .inr ⟨hp, Iff.rfl⟩

/-- The base and the working tree have no files, and the listing has one. -/
theorem listWorkingTreeChanges_unfaithful :
    Answers notesGit "main".toList [addedNotes] [deletedNotes] ∧
      Reports ([addedNotes].map NameStatusLine.reported) noFiles onlyNotes ∧
      Reports ([deletedNotes].flatMap StatusItem.reported) onlyNotes noFiles ∧
      ∃ files, (listWorkingTreeChanges notesGit "main".toList).run = .ok (some files) ∧
        ¬ Faithful files noFiles noFiles := by
  refine ⟨notesGit_answers, reports_addedNotes, reports_deletedNotes, ?_⟩
  obtain ⟨files, hrun, hfaithful⟩ :=
    exists_listing (by decide : "main".toList ≠ headText) notesGit_answers reports_addedNotes reports_deletedNotes
  refine ⟨files, hrun, fun h => ?_⟩
  have hnotes := hfaithful.mp h notes.val
  revert hnotes
  decide

end Builderbot.Git
