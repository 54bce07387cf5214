import Builderbot.Git.Porcelain
import Builderbot.Lib.Table

/-!
# Decoding `git diff --name-status -z` and `--numstat -z`

`parse_name_status`, `parse_numstat` and `apply_numstat_output` of `crates/git-diff/src/diff.rs`. Both outputs consist of
parts that end with NUL, a different number of them for a rename; the counts of the second output are joined to the
summaries of the first one by path.

`applyNumstatOutput_parseNameStatus`: for the outputs that git writes for a list of changes with different paths, every
change of a known kind gets its own paths and counts.
-/

namespace Builderbot.Git

open Lib.Text

/-! ## Paths as keys -/

/-- What is compared of a `PathBuf`: its components. Empty ones and dots are dropped, but for a leading dot. -/
structure PathKey where
  root : Bool
  curDir : Bool
  parts : List Text
deriving DecidableEq, Repr

def pathKey (path : Text) : PathKey where
  root := path.head? = some '/'
  curDir := (path.splitOn '/').head? = some ['.']
  parts := (path.splitOn '/').filter fun part => part ≠ [] ∧ part ≠ ['.']

/-- Git writes paths without such components, and these are told apart. -/
theorem eq_of_pathKey_eq {p q : Text} (hp : ∀ part ∈ p.splitOn '/', part ≠ [] ∧ part ≠ ['.'])
    (hq : ∀ part ∈ q.splitOn '/', part ≠ [] ∧ part ≠ ['.']) (h : pathKey p = pathKey q) : p = q := by
  have hparts : (p.splitOn '/').filter (fun part => part ≠ [] ∧ part ≠ ['.']) =
      (q.splitOn '/').filter (fun part => part ≠ [] ∧ part ≠ ['.']) := congrArg PathKey.parts h
  rw [List.filter_eq_self.mpr fun part hpart => decide_eq_true (hp part hpart),
    List.filter_eq_self.mpr fun part hpart => decide_eq_true (hq part hpart)] at hparts
  calc p = ['/'].intercalate (p.splitOn '/') := (List.intercalate_splitOn '/').symm
    _ = ['/'].intercalate (q.splitOn '/') := by rw [hparts]
    _ = q := List.intercalate_splitOn '/'

/-! ## The parsers -/

/-- What the letter and the parts after it give, and the parts that are left. -/
def readChange (letter : Char) (parts : List Text) : Option FileDiffSummary × List Text :=
  if letter = 'A' then (parts.head?.map fun path => .new none (some path), parts.tail)
  else if letter = 'D' then (parts.head?.map fun path => .new (some path) none, parts.tail)
  else if letter = 'M' ∨ letter = 'T' then (parts.head?.map fun path => .new (some path) (some path), parts.tail)
  else if letter = 'R' ∨ letter = 'C' then
    match parts with
    | old :: new :: rest => (some (.new (some old) (some new)), rest)
    | _ => (none, [])
  else (none, parts.tail)

theorem readChange_length (letter : Char) (parts : List Text) : (readChange letter parts).2.length ≤ parts.length := by
  have htail : parts.tail.length ≤ parts.length := by
    rw [List.length_tail]
    omega
  simp only [readChange]
  split
  · exact htail
  · split
    · exact htail
    · split
      · exact htail
      · split
        · split
          · simp only [List.length_cons]
            omega
          · exact Nat.zero_le _
        · exact htail

/-- The loop of `parse_name_status`. -/
def nameStatusFrom : List Text → List FileDiffSummary
  | [] => []
  | [] :: parts => nameStatusFrom parts
  | (letter :: _) :: parts => (readChange letter parts).1.toList ++ nameStatusFrom (readChange letter parts).2
termination_by parts => parts.length
decreasing_by
  · exact Nat.lt_succ_self _
  · exact Nat.lt_succ_of_le (readChange_length letter parts)

/-- `parse_name_status`, which never fails. -/
def parseNameStatus {ε : Type*} (output : Text) : Except ε (List FileDiffSummary) := .ok (nameStatusFrom (output.splitOn nul))

structure LineStats where
  added : Option ℕ
  deleted : Option ℕ
deriving DecidableEq, Repr

def parseNumstatCount (value : Text) : Option ℕ := if value = ['-'] then none else parseU32 value

/-- Counts are kept if they are for a path. -/
def insertStats (path : Option Text) (lineStats : LineStats) (stats : Table PathKey LineStats) : Table PathKey LineStats :=
  match path.filter (· ≠ []) with
  | some path => stats.insert (pathKey path) lineStats
  | none => stats

/-- The loop of `parse_numstat`. -/
def numstatFrom : List Text → Table PathKey LineStats → Table PathKey LineStats
  | [], stats => stats
  | record :: parts, stats =>
    if record = [] then numstatFrom parts stats
    else
      match record.splitOn '\t' with
      | added :: deleted :: columns =>
        let lineStats : LineStats := ⟨parseNumstatCount added, parseNumstatCount deleted⟩
        let pathField := columns.head?.getD []
        -- the paths of a rename are the next two parts
        if pathField = [] then numstatFrom (parts.drop 2) (insertStats parts.tail.head? lineStats stats)
        else numstatFrom parts (insertStats (some pathField) lineStats stats)
      | _ => numstatFrom parts stats
termination_by parts => parts.length
decreasing_by
  · exact Nat.lt_succ_self _
  · exact Nat.lt_succ_of_le (by rw [List.length_drop]; omega)
  · exact Nat.lt_succ_self _
  · exact Nat.lt_succ_self _

def parseNumstat (output : Text) : Table PathKey LineStats := numstatFrom (output.splitOn nul) ∅

/-- The round of `apply_numstat_output` for one file; `none` is the panic of `FileDiffSummary::path`. -/
def withStats (stats : Table PathKey LineStats) (file : FileDiffSummary) : Option FileDiffSummary :=
  file.path.map fun path =>
    match stats.lookup (pathKey path) with
    | some lineStats => { file with addedLines := lineStats.added, deletedLines := lineStats.deleted }
    | none => file

def applyNumstatOutput (files : List FileDiffSummary) (output : Text) : Option (List FileDiffSummary) :=
  files.mapM (withStats (parseNumstat output))

/-! ## Changes as git writes them -/

/-- A path that is not empty and has no NUL and no tab. -/
abbrev ChangePath := { p : Text // p ≠ [] ∧ nul ∉ p ∧ '\t' ∉ p }

/-- A change with its counts, which are missing for a binary file. `old` is written only for a rename or copy. -/
structure Change where
  letter : Char
  /-- What follows the letter, such as the similarity of a rename. -/
  score : Text
  old : ChangePath
  path : ChangePath
  counts : Option (UInt32 × UInt32)
  letter_ne : letter ≠ nul
  score_nul : nul ∉ score

namespace Change

variable (change : Change)

def IsRename : Prop := change.letter = 'R' ∨ change.letter = 'C'

instance IsRename.decidable : Decidable change.IsRename := inferInstanceAs (Decidable (_ ∨ _))

/-- The parser knows the letter. -/
def Known : Prop := change.letter ∈ ['A', 'D', 'M', 'T', 'R', 'C']

instance Known.decidable : Decidable change.Known := inferInstanceAs (Decidable (_ ∈ _))

/-- The parts of the change in the output of `--name-status`. -/
def nameStatusParts : List Text :=
  (change.letter :: change.score) :: if change.IsRename then [change.old.val, change.path.val] else [change.path.val]

/-- A count as git writes it. -/
def countText : Option UInt32 → Text
  | some n => decimal n.toNat
  | none => ['-']

def countColumns : Text :=
  countText (change.counts.map (·.1)) ++ '\t' :: (countText (change.counts.map (·.2)) ++ ['\t'])

/-- The parts of the change in the output of `--numstat`. -/
def numstatParts : List Text :=
  if change.IsRename then [change.countColumns, change.old.val, change.path.val]
  else [change.countColumns ++ change.path.val]

def lineStats : LineStats := ⟨change.counts.map (·.1.toNat), change.counts.map (·.2.toNat)⟩

/-- The change without its counts. -/
def bare : FileDiffSummary :=
  .new (if change.letter = 'A' then none else if change.IsRename then some change.old.val else some change.path.val)
    (if change.letter = 'D' then none else some change.path.val)

def summary : FileDiffSummary :=
  { change.bare with addedLines := change.lineStats.added, deletedLines := change.lineStats.deleted }

def key : PathKey := pathKey change.path.val

end Change

/-- Parts as git writes them. -/
def encodeParts (parts : List Text) : Text := parts.flatMap (· ++ [nul])

def encodeNameStatus (changes : List Change) : Text := encodeParts (changes.flatMap Change.nameStatusParts)

def encodeNumstat (changes : List Change) : Text := encodeParts (changes.flatMap Change.numstatParts)

/-! ## Reading back -/

theorem splitOn_encodeParts {parts : List Text} (h : ∀ part ∈ parts, nul ∉ part) :
    (encodeParts parts).splitOn nul = parts ++ [[]] := by
  induction parts with
  | nil => rfl
  | cons part parts ih =>
    obtain ⟨hpart, hparts⟩ := List.forall_mem_cons.mp h
    have hcons : encodeParts (part :: parts) = part ++ nul :: encodeParts parts := by
      rw [encodeParts, List.flatMap_cons, List.append_assoc]
      rfl
    rw [hcons, List.splitOn_append_cons_self_of_not_mem hpart, ih hparts]
    rfl

theorem readChange_of_rename {letter : Char} (h : letter = 'R' ∨ letter = 'C') (old new : Text) (rest : List Text) :
    readChange letter (old :: new :: rest) = (some (.new (some old) (some new)), rest) := by
  rcases h with rfl | rfl <;> rfl

theorem readChange_single {letter : Char} (h : ¬ (letter = 'R' ∨ letter = 'C')) (path : Text) (rest : List Text) :
    readChange letter (path :: rest) =
      (if letter ∈ ['A', 'D', 'M', 'T', 'R', 'C'] then
        some (.new (if letter = 'A' then none else some path) (if letter = 'D' then none else some path)) else none, rest) := by
  by_cases hA : letter = 'A'
  · subst hA
    rfl
  · by_cases hD : letter = 'D'
    · subst hD
      rfl
    · by_cases hM : letter = 'M' ∨ letter = 'T'
      · rcases hM with rfl | rfl <;> rfl
      · have hunknown : letter ∉ ['A', 'D', 'M', 'T', 'R', 'C'] := by
          simp only [List.mem_cons, List.not_mem_nil, or_false, not_or] at h hM ⊢
          exact ⟨hA, hD, hM.1, hM.2, h.1, h.2⟩
        unfold readChange
        rw [if_neg hA, if_neg hD, if_neg hM, if_neg h, if_neg hunknown]
        rfl

namespace Change

variable {change : Change}

theorem nul_notMem_nameStatusParts : ∀ part ∈ change.nameStatusParts, nul ∉ part := by
  have hstatus : nul ∉ change.letter :: change.score := by
    rw [List.mem_cons, not_or]
    exact ⟨change.letter_ne.symm, change.score_nul⟩
  intro part hpart
  rw [nameStatusParts] at hpart
  split at hpart
  · simp only [List.mem_cons, List.not_mem_nil, or_false] at hpart
    rcases hpart with rfl | rfl | rfl
    · exact hstatus
    · exact change.old.property.2.1
    · exact change.path.property.2.1
  · simp only [List.mem_cons, List.not_mem_nil, or_false] at hpart
    rcases hpart with rfl | rfl
    · exact hstatus
    · exact change.path.property.2.1

/-- Neither NUL nor a tab stands in a count. -/
theorem notMem_countText (count : Option UInt32) {c : Char} (hc : c.isDigit = false) (hdash : c ≠ '-') :
    c ∉ countText count := by
  cases count with
  | none =>
    rw [countText, List.mem_singleton]
    exact hdash
  | some n => exact notMem_decimal hc

theorem nul_notMem_countColumns : nul ∉ change.countColumns := by
  simp only [countColumns, List.mem_append, List.mem_cons, List.not_mem_nil, or_false, not_or]
  exact ⟨notMem_countText _ (by decide) (by decide), by decide, notMem_countText _ (by decide) (by decide), by decide⟩

theorem nul_notMem_numstatParts : ∀ part ∈ change.numstatParts, nul ∉ part := by
  intro part hpart
  rw [numstatParts] at hpart
  split at hpart
  · simp only [List.mem_cons, List.not_mem_nil, or_false] at hpart
    rcases hpart with rfl | rfl | rfl
    · exact nul_notMem_countColumns
    · exact change.old.property.2.1
    · exact change.path.property.2.1
  · rw [List.mem_singleton] at hpart
    subst hpart
    rw [List.mem_append, not_or]
    exact ⟨nul_notMem_countColumns, change.path.property.2.1⟩

/-- The parts of a change are read, and no others. -/
theorem nameStatusFrom_parts (rest : List Text) :
    nameStatusFrom (change.nameStatusParts ++ rest) = (if change.Known then [change.bare] else []) ++ nameStatusFrom rest := by
  rw [nameStatusParts]
  by_cases hrename : change.IsRename
  · have hknown : change.Known := by
      rw [Known]
      rcases hrename with h | h <;> rw [h] <;> decide
    have hbare : change.bare = .new (some change.old.val) (some change.path.val) := by
      rw [bare, if_pos hrename, if_neg fun h => ?_, if_neg fun h => ?_]
      · rcases hrename with h' | h' <;> exact absurd (h.symm.trans h') (by decide)
      · rcases hrename with h' | h' <;> exact absurd (h.symm.trans h') (by decide)
    rw [if_pos hrename, if_pos hknown, hbare]
    show nameStatusFrom ((change.letter :: change.score) :: change.old.val :: change.path.val :: rest) = _
    rw [nameStatusFrom, readChange_of_rename hrename]
    rfl
  · rw [if_neg hrename]
    show nameStatusFrom ((change.letter :: change.score) :: change.path.val :: rest) = _
    rw [nameStatusFrom, readChange_single hrename, bare, if_neg hrename]
    show (if change.Known then _ else none, rest).1.toList ++ nameStatusFrom rest = _
    by_cases hknown : change.Known
    · rw [if_pos hknown, if_pos hknown]
      rfl
    · rw [if_neg hknown, if_neg hknown]
      rfl

theorem parseNumstatCount_countText (count : Option UInt32) :
    parseNumstatCount (countText count) = count.map (·.toNat) := by
  cases count with
  | none => rfl
  | some n =>
    have hne : decimal n.toNat ≠ ['-'] := fun h =>
      notMem_decimal (n := n.toNat) (c := '-') (by decide) (by rw [h]; exact List.mem_singleton_self _)
    rw [countText, parseNumstatCount, if_neg hne, parseU32_decimal n.toNat_lt]
    rfl

theorem splitOn_countColumns {rest : Text} (h : '\t' ∉ rest) :
    (change.countColumns ++ rest).splitOn '\t' =
      [countText (change.counts.map (·.1)), countText (change.counts.map (·.2)), rest] := by
  have hsplit : change.countColumns ++ rest = countText (change.counts.map (·.1)) ++ '\t' ::
      (countText (change.counts.map (·.2)) ++ '\t' :: rest) := by
    simp only [countColumns, List.append_assoc, List.cons_append, List.nil_append]
  rw [hsplit, List.splitOn_append_cons_self_of_not_mem (notMem_countText _ (by decide) (by decide)),
    List.splitOn_append_cons_self_of_not_mem (notMem_countText _ (by decide) (by decide)),
    List.splitOn_eq_singleton h]

theorem countColumns_append_ne_nil (rest : Text) : change.countColumns ++ rest ≠ [] := by
  simp [countColumns]

/-- The parts of a change are read, and its counts are stored for its path. -/
theorem numstatFrom_parts (rest : List Text) (stats : Table PathKey LineStats) :
    numstatFrom (change.numstatParts ++ rest) stats = numstatFrom rest (stats.insert change.key change.lineStats) := by
  have hinsert : insertStats (some change.path.val) change.lineStats stats = stats.insert change.key change.lineStats := by
    rw [insertStats, Option.filter_some, if_pos (decide_eq_true change.path.property.1)]
    rfl
  have hstats : (⟨parseNumstatCount (countText (change.counts.map (·.1))),
      parseNumstatCount (countText (change.counts.map (·.2)))⟩ : LineStats) = change.lineStats := by
    rw [parseNumstatCount_countText, parseNumstatCount_countText, Option.map_map, Option.map_map]
    rfl
  rw [numstatParts]
  split
  next hrename =>
    show numstatFrom (change.countColumns :: change.old.val :: change.path.val :: rest) stats = _
    have hcolumns := @splitOn_countColumns change [] List.not_mem_nil
    have hne := @countColumns_append_ne_nil change []
    rw [List.append_nil] at hcolumns hne
    rw [numstatFrom, if_neg hne, hcolumns]
    simp only [List.head?_cons, Option.getD_some, if_true, List.tail_cons, List.drop_succ_cons, List.drop_zero]
    rw [hstats, hinsert]
  next hrename =>
    show numstatFrom ((change.countColumns ++ change.path.val) :: rest) stats = _
    rw [numstatFrom, if_neg (countColumns_append_ne_nil _), splitOn_countColumns change.path.property.2.2]
    show (if change.path.val = [] then _ else numstatFrom rest (insertStats (some change.path.val) _ stats)) = _
    rw [if_neg change.path.property.1, hstats, hinsert]

end Change

theorem nameStatusFrom_encode (changes : List Change) :
    nameStatusFrom ((encodeNameStatus changes).splitOn nul) = (changes.filter (·.Known)).map Change.bare := by
  rw [encodeNameStatus, splitOn_encodeParts fun part hpart => ?_]
  · induction changes with
    | nil => simp [nameStatusFrom]
    | cons change changes ih =>
      rw [List.flatMap_cons, List.append_assoc, Change.nameStatusFrom_parts, ih, List.filter_cons]
      split
      next hknown => rw [if_pos (decide_eq_true hknown)]; rfl
      next hknown => rw [if_neg fun h => hknown (of_decide_eq_true h)]; rfl
  · obtain ⟨change, -, hpart⟩ := List.mem_flatMap.mp hpart
    exact Change.nul_notMem_nameStatusParts part hpart

theorem parseNumstat_encode (changes : List Change) :
    parseNumstat (encodeNumstat changes) = changes.foldl (fun stats change => stats.insert change.key change.lineStats) ∅ := by
  rw [parseNumstat, encodeNumstat, splitOn_encodeParts fun part hpart => ?_]
  · generalize (∅ : Table PathKey LineStats) = stats
    induction changes generalizing stats with
    | nil => simp [numstatFrom]
    | cons change changes ih =>
      rw [List.flatMap_cons, List.append_assoc, Change.numstatFrom_parts, ih]
      rfl
  · obtain ⟨change, -, hpart⟩ := List.mem_flatMap.mp hpart
    exact Change.nul_notMem_numstatParts part hpart

/-- The primary path of a change is the one that its counts are stored for. -/
theorem Change.path_bare (change : Change) : change.bare.path = some change.path.val := by
  rw [FileDiffSummary.path, bare]
  by_cases hD : change.letter = 'D'
  · have hrename : ¬ change.IsRename := by
      rw [IsRename, hD]
      decide
    have hA : change.letter ≠ 'A' := by
      rw [hD]
      decide
    rw [if_pos hD, if_neg hA, if_neg hrename]
    rfl
  · rw [if_neg hD]
    rfl

/-- Every change of a known kind, with its own counts. -/
theorem applyNumstatOutput_parseNameStatus {ε : Type*} (changes : List Change) (h : (changes.map Change.key).Nodup) :
    ∃ files, parseNameStatus (ε := ε) (encodeNameStatus changes) = .ok files ∧
      applyNumstatOutput files (encodeNumstat changes) = some ((changes.filter (·.Known)).map Change.summary) := by
  refine ⟨_, congrArg Except.ok (nameStatusFrom_encode changes), ?_⟩
  have hlookup : ∀ change ∈ changes, (parseNumstat (encodeNumstat changes)).lookup change.key = some change.lineStats := by
    intro change hchange
    rw [parseNumstat_encode]
    exact Table.lookup_foldl_insert_of_mem Change.key Change.lineStats h hchange ∅
  have hstats : ∀ change ∈ changes.filter (·.Known),
      withStats (parseNumstat (encodeNumstat changes)) change.bare = some change.summary := by
    intro change hchange
    rw [withStats, change.path_bare, Option.map_some]
    show some (match (parseNumstat (encodeNumstat changes)).lookup change.key with | some _ => _ | none => _) = _
    rw [hlookup change (List.mem_of_mem_filter hchange)]
    rfl
  rw [applyNumstatOutput, List.mapM_map]
  generalize changes.filter (·.Known) = known at hstats ⊢
  induction known with
  | nil => rfl
  | cons change known ih =>
    obtain ⟨hchange, hknown⟩ := List.forall_mem_cons.mp hstats
    rw [List.mapM_cons, ih hknown, Function.comp_apply, hchange]
    rfl

/-- A renamed file with counts, a binary file and one with a conflict. -/
theorem applyNumstatOutput_parseNameStatus_renamed :
    ∃ files, parseNameStatus (ε := Empty) (encodeNameStatus
        [⟨'R', "100".toList, ⟨"old".toList, by decide⟩, ⟨"new".toList, by decide⟩, some (2, 1), by decide, by decide⟩,
          ⟨'U', [], ⟨"u".toList, by decide⟩, ⟨"u".toList, by decide⟩, some (9, 9), by decide, by decide⟩,
          ⟨'M', [], ⟨"bin".toList, by decide⟩, ⟨"bin".toList, by decide⟩, none, by decide, by decide⟩]) = .ok files ∧
      applyNumstatOutput files (encodeNumstat
        [⟨'R', "100".toList, ⟨"old".toList, by decide⟩, ⟨"new".toList, by decide⟩, some (2, 1), by decide, by decide⟩,
          ⟨'U', [], ⟨"u".toList, by decide⟩, ⟨"u".toList, by decide⟩, some (9, 9), by decide, by decide⟩,
          ⟨'M', [], ⟨"bin".toList, by decide⟩, ⟨"bin".toList, by decide⟩, none, by decide, by decide⟩]) =
        some [⟨some "old".toList, some "new".toList, some 2, some 1⟩, ⟨some "bin".toList, some "bin".toList, none, none⟩] :=
  applyNumstatOutput_parseNameStatus _ (by decide)

end Builderbot.Git
