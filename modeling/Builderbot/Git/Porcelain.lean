import Builderbot.Git.Types

/-!
# Decoding `git status --porcelain -z`

`parse_porcelain_status` of `crates/git-diff/src/diff.rs` reads a record of variable arity with one
character iterator: two status letters, a space, a path up to NUL, and a second path for a rename or
copy. Git writes the new path of a rename first and the original path second.

The parser takes the two paths in the other order, and it looks for a second path only when the
first letter is `R` or `C`. `parsePorcelainStatus_encode_iff` says which lists of entries it decodes
all the same.
-/

namespace Builderbot.Git

/-- The character that ends a path. -/
def nul : Char := Char.ofNat 0

/-- Take characters up to the next NUL, which is consumed as well: `take_while` on the borrowed
character iterator. -/
def takeUntilNul (s : Text) : Text × Text :=
  (s.takeWhile (· ≠ nul), (s.dropWhile (· ≠ nul)).tail)

/-- One record: the status letters and the paths as the parser assigns them. -/
structure PorcelainRecord where
  x : Char
  y : Char
  oldPath : Option Text
  newPath : Option Text
deriving DecidableEq, Repr

/-- Read the rest of a record after its first status letter. The record is `none` when its path is
empty; the second component is the text that remains. -/
def readRecord (x : Char) (s : Text) : Option PorcelainRecord × Text :=
  let y := s.headD ' '
  let afterXY := s.tail
  -- skip the space after the status letters
  let atPath := if afterXY.head? = some ' ' then afterXY.tail else afterXY
  let (path, rest) := takeUntilNul atPath
  if path = [] then (none, rest)
  else if x = 'R' ∨ x = 'C' then
    -- two paths: the first one is taken for the old path
    let (new, rest') := takeUntilNul rest
    (some ⟨x, y, some path, if new = [] then none else some new⟩, rest')
  else (some ⟨x, y, none, some path⟩, rest)

section Parser

variable {ε : Type*} (lsFiles : Text → Except ε Text)

/-- `expand_untracked_dir`; `lsFiles` runs `git ls-files --others --exclude-standard -z` on the
directory. -/
def expandUntrackedDir (dir : Text) : Except ε (List Text) := do
  let output ← lsFiles dir
  return (output.splitOn nul).filter (· ≠ [])

/-- The summaries pushed for one record. -/
def recordSummaries (r : PorcelainRecord) : Except ε (List FileDiffSummary) :=
  if r.x = '?' ∧ r.y = '?' then
    match r.newPath with
    | some p =>
      -- git collapses an untracked directory; its files are listed one by one
      if p.getLast? = some '/' then do
        let files ← expandUntrackedDir lsFiles p
        return files.map fun f => .new none (some f)
      else .ok [.new none (some p)]
    | none => .ok []
  else if r.x = 'A' ∨ r.y = 'A' then .ok [.new none r.newPath]
  else if r.x = 'D' ∨ r.y = 'D' then .ok [.new r.newPath none]
  else if r.x = 'R' ∨ r.x = 'C' then .ok [.new r.oldPath r.newPath]
  else .ok [.new r.newPath r.newPath]

theorem takeUntilNul_length (s : Text) : (takeUntilNul s).2.length ≤ s.length := by
  simp only [takeUntilNul, List.length_tail]
  have := (List.dropWhile_suffix (fun c => decide (c ≠ nul)) (l := s)).length_le
  omega

theorem readRecord_length (x : Char) (s : Text) : (readRecord x s).2.length ≤ s.length := by
  have hat : (if s.tail.head? = some ' ' then s.tail.tail else s.tail).length ≤ s.length := by
    split
    · simp only [List.length_tail]; omega
    · simp only [List.length_tail]; omega
  simp only [readRecord]
  generalize (if s.tail.head? = some ' ' then s.tail.tail else s.tail) = atPath at hat
  have hrest : (takeUntilNul atPath).2.length ≤ s.length :=
    Nat.le_trans (takeUntilNul_length atPath) hat
  split
  · exact hrest
  · split
    · exact Nat.le_trans (takeUntilNul_length _) hrest
    · exact hrest

/-- `parse_porcelain_status`. -/
def parsePorcelainStatus : Text → Except ε (List FileDiffSummary)
  | [] => .ok []
  | x :: s =>
    match (readRecord x s).1 with
    | none => parsePorcelainStatus (readRecord x s).2
    | some r => do
        let here ← recordSummaries lsFiles r
        let more ← parsePorcelainStatus (readRecord x s).2
        return here ++ more
termination_by s => s.length
decreasing_by all_goals exact Nat.lt_succ_of_le (readRecord_length x s)

end Parser

/-! ## Entries as git writes them -/

/-- The status letters of the short format. -/
inductive StatusLetter where
  | unmodified
  | modified
  | typeChanged
  | added
  | deleted
  | renamed
  | copied
  | unmerged
  | untracked
deriving DecidableEq, Repr

namespace StatusLetter

/-- The character of a status letter. -/
def char : StatusLetter → Char
  | unmodified => ' '
  | modified => 'M'
  | typeChanged => 'T'
  | added => 'A'
  | deleted => 'D'
  | renamed => 'R'
  | copied => 'C'
  | unmerged => 'U'
  | untracked => '?'

/-- Whether the letter stands for a rename or a copy. -/
def isRename : StatusLetter → Bool
  | renamed | copied => true
  | _ => false

end StatusLetter

/-- The pairs of letters git's manual lists for the short format, without ignored files, which are
only shown on request. -/
def documentedPair : StatusLetter → StatusLetter → Bool
  | .unmodified, .added | .unmodified, .modified | .unmodified, .typeChanged
  | .unmodified, .deleted | .unmodified, .renamed | .unmodified, .copied => true
  | .modified, y | .typeChanged, y | .renamed, y | .copied, y =>
    y = .unmodified || y = .modified || y = .typeChanged || y = .deleted
  | .added, y =>
    y = .unmodified || y = .modified || y = .typeChanged || y = .deleted || y = .added ||
      y = .unmerged
  | .deleted, y => y = .unmodified || y = .deleted || y = .unmerged
  | .unmerged, y => y = .deleted || y = .added || y = .unmerged
  | .untracked, .untracked => true
  | _, _ => false

/-- A path as it can stand in the output: not empty and without NUL. -/
abbrev StatusPath := { p : Text // p ≠ [] ∧ nul ∉ p }

/-- A status entry. `orig` is the original path of a rename or copy and is written only for these;
a rename or copy relates two different paths. An untracked directory, which git writes with a
trailing slash, is not an entry of this kind. -/
structure StatusEntry where
  x : StatusLetter
  y : StatusLetter
  documented : documentedPair x y = true
  path : StatusPath
  orig : StatusPath
  orig_ne : (x.isRename || y.isRename) = true → orig.val ≠ path.val
  untracked_file : x = .untracked → path.val.getLast? ≠ some '/'

namespace StatusEntry

/-- Whether the entry is a rename or copy, in either column. -/
def isRename (e : StatusEntry) : Bool := e.x.isRename || e.y.isRename

/-- The text git writes for an entry: the new path comes first. -/
def encode (e : StatusEntry) : Text :=
  e.x.char :: e.y.char :: ' ' :: (e.path.val ++ nul :: if e.isRename then e.orig.val ++ [nul] else [])

/-- The path of the entry on the old side. -/
def oldSide (e : StatusEntry) : Text := if e.isRename then e.orig.val else e.path.val

/-- The summary that states what the entry says: no before for an added or untracked file, no after
for a deleted one, and otherwise the original and the new path. Of two different letters the more
drastic one decides, in the order in which the parser looks at them. -/
def summary (e : StatusEntry) : FileDiffSummary :=
  if e.x = .untracked ∨ e.x = .added ∨ e.y = .added then .new none (some e.path.val)
  else if e.x = .deleted ∨ e.y = .deleted then .new (some e.oldSide) none
  else .new (some e.oldSide) (some e.path.val)

/-- The entries the parser reads correctly: everything but renames and copies, and of these the ones
whose new file is already deleted again in the working tree. -/
def Decodable (e : StatusEntry) : Prop := e.isRename = true → e.y = .deleted

end StatusEntry

/-- The output of `git status --porcelain -z` for a list of entries. -/
def encodeStatus (es : List StatusEntry) : Text := es.flatMap StatusEntry.encode

/-! ## Reading one encoded entry -/

theorem takeUntilNul_append {p : Text} (hp : nul ∉ p) (s : Text) :
    takeUntilNul (p ++ nul :: s) = (p, s) := by
  induction p with
  | nil => simp [takeUntilNul]
  | cons c p ih =>
    rw [List.mem_cons, not_or] at hp
    obtain ⟨hc, hp'⟩ := hp
    simpa [takeUntilNul, Ne.symm hc] using ih hp'

/-- A record with one path, for a first letter other than `R` and `C`. -/
theorem readRecord_single {x y : Char} (hx : ¬(x = 'R' ∨ x = 'C')) (p : StatusPath) (s : Text) :
    readRecord x (y :: ' ' :: (p.val ++ nul :: s)) = (some ⟨x, y, none, some p.val⟩, s) := by
  simp [readRecord, takeUntilNul_append p.property.2, p.property.1, hx]

/-- A record with two paths, for the first letter `R` or `C`. The first path becomes the old one. -/
theorem readRecord_pair {x y : Char} (hx : x = 'R' ∨ x = 'C') (p q : StatusPath) (s : Text) :
    readRecord x (y :: ' ' :: (p.val ++ nul :: (q.val ++ nul :: s)))
      = (some ⟨x, y, some p.val, some q.val⟩, s) := by
  simp [readRecord, takeUntilNul_append p.property.2, takeUntilNul_append q.property.2,
    p.property.1, q.property.1, hx]

variable {e : StatusEntry}

section Decoding

variable {ε : Type*} (lsFiles : Text → Except ε Text)

/-- One turn of the parser's loop on a record with a single summary. -/
theorem parsePorcelainStatus_record {x : Char} {s rest : Text} {r : PorcelainRecord}
    {d : FileDiffSummary} (hread : readRecord x s = (some r, rest))
    (hsum : recordSummaries lsFiles r = .ok [d]) :
    parsePorcelainStatus lsFiles (x :: s) = (d :: ·) <$> parsePorcelainStatus lsFiles rest := by
  rw [parsePorcelainStatus, hread]
  simp only [hsum]
  cases parsePorcelainStatus lsFiles rest with
  | error err => rfl
  | ok ds => rfl

/-- The letter of a rename or copy, as the parser tests for it. -/
theorem isRename_char (l : StatusLetter) : (l.char = 'R' ∨ l.char = 'C') ↔ l.isRename = true := by
  cases l <;> decide

/-- An entry that is no rename or copy is read back. -/
theorem parsePorcelainStatus_single (h : e.isRename = false) (s : Text) :
    parsePorcelainStatus lsFiles (e.encode ++ s)
      = (e.summary :: ·) <$> parsePorcelainStatus lsFiles s := by
  obtain ⟨x, y, hdoc, path, orig, hne, hslash⟩ := e
  simp only [StatusEntry.isRename, Bool.or_eq_false_iff] at h
  obtain ⟨hx, hy⟩ := h
  have hchar : ¬(x.char = 'R' ∨ x.char = 'C') := by rw [isRename_char, hx]; decide
  simp only [StatusEntry.encode, StatusEntry.isRename, hx, hy, Bool.or_self, Bool.false_eq_true,
    if_false, List.cons_append, List.append_assoc, List.nil_append]
  refine parsePorcelainStatus_record lsFiles (readRecord_single hchar path s) ?_
  cases x <;> cases y <;> first
  | exact absurd hdoc (by decide)
  | simp_all [recordSummaries, StatusLetter.char, StatusEntry.summary,
      StatusEntry.oldSide, StatusEntry.isRename, StatusLetter.isRename]

/-- A rename or copy in the first column: the two paths change places. -/
theorem parsePorcelainStatus_pair (h : e.x.isRename = true) (s : Text) :
    parsePorcelainStatus lsFiles (e.encode ++ s)
      = ((if e.y = .deleted then e.summary else .new (some e.path.val) (some e.orig.val)) :: ·) <$>
          parsePorcelainStatus lsFiles s := by
  obtain ⟨x, y, hdoc, path, orig, hne, hslash⟩ := e
  simp only [StatusEntry.encode, StatusEntry.isRename, h, Bool.true_or, if_true,
    List.cons_append, List.append_assoc, List.nil_append]
  refine parsePorcelainStatus_record lsFiles
    (readRecord_pair ((isRename_char x).mpr h) path orig s) ?_
  cases x <;> cases y <;> first
  | exact absurd hdoc (by decide)
  | simp_all [recordSummaries, StatusLetter.char, StatusEntry.summary,
      StatusEntry.oldSide, StatusEntry.isRename, StatusLetter.isRename]

/-- A rename or copy in the second column only: the entry is taken for a modification, and its
original path is left for the next record. -/
theorem parsePorcelainStatus_worktree_rename (hx : e.x.isRename = false)
    (hy : e.y.isRename = true) (s : Text) :
    parsePorcelainStatus lsFiles (e.encode ++ s)
      = (.new (some e.path.val) (some e.path.val) :: ·) <$>
          parsePorcelainStatus lsFiles (e.orig.val ++ nul :: s) := by
  obtain ⟨x, y, hdoc, path, orig, hne, hslash⟩ := e
  have hchar : ¬(x.char = 'R' ∨ x.char = 'C') := by rw [isRename_char, hx]; decide
  simp only [StatusEntry.encode, StatusEntry.isRename, hx, hy, Bool.or_true, if_true,
    List.cons_append, List.append_assoc, List.nil_append]
  refine parsePorcelainStatus_record lsFiles (readRecord_single hchar path _) ?_
  cases x <;> cases y <;> first
  | exact absurd hdoc (by decide)
  | simp_all [recordSummaries, StatusLetter.char, StatusLetter.isRename]

/-- An entry the parser decodes contributes its summary and leaves the rest of the text. -/
theorem parsePorcelainStatus_decodable (h : e.Decodable) (s : Text) :
    parsePorcelainStatus lsFiles (e.encode ++ s)
      = (e.summary :: ·) <$> parsePorcelainStatus lsFiles s := by
  by_cases hren : e.isRename = true
  · have hy : e.y = .deleted := h hren
    have hx : e.x.isRename = true := by
      simpa [StatusEntry.isRename, hy, StatusLetter.isRename] using hren
    rw [parsePorcelainStatus_pair lsFiles hx, if_pos hy]
  · exact parsePorcelainStatus_single lsFiles (by simpa using hren) s

/-- Any other entry contributes a summary that is not its own, whatever follows. -/
theorem parsePorcelainStatus_not_decodable (h : ¬e.Decodable) (s : Text) : ∃ d rest, d ≠ e.summary ∧
      parsePorcelainStatus lsFiles (e.encode ++ s)
        = (d :: ·) <$> parsePorcelainStatus lsFiles rest := by
  obtain ⟨hren, hdel⟩ : e.isRename = true ∧ e.y ≠ .deleted := by
    simpa [StatusEntry.Decodable] using h
  have hne : e.orig.val ≠ e.path.val := e.orig_ne hren
  have hsum : e.summary = .new (some e.orig.val) (some e.path.val) := by
    obtain ⟨x, y, hdoc, path, orig, _, _⟩ := e
    cases x <;> cases y <;> first
    | exact absurd hdoc (by decide)
    | simp_all [StatusEntry.summary, StatusEntry.oldSide, StatusEntry.isRename,
        StatusLetter.isRename]
  by_cases hx : e.x.isRename = true
  · -- in the first column the two paths are exchanged
    refine ⟨_, s, ?_, parsePorcelainStatus_pair lsFiles hx s⟩
    rw [if_neg hdel, hsum]
    simp [FileDiffSummary.new, hne]
  · -- in the second column the new path stands on both sides
    have hx : e.x.isRename = false := by simpa using hx
    have hy : e.y.isRename = true := by simpa [StatusEntry.isRename, hx] using hren
    refine ⟨_, _, ?_, parsePorcelainStatus_worktree_rename lsFiles hx hy s⟩
    rw [hsum]
    simp [FileDiffSummary.new, hne.symm]

/-- The parser returns one summary per entry, in order and with the entry's own paths, exactly for
the lists whose renames and copies all have a deleted new file. -/
theorem parsePorcelainStatus_encode_iff (es : List StatusEntry) :
    parsePorcelainStatus lsFiles (encodeStatus es) = .ok (es.map StatusEntry.summary) ↔
      ∀ e ∈ es, e.Decodable := by
  induction es with
  | nil => simp [encodeStatus, parsePorcelainStatus]
  | cons e es ih =>
    have hsplit : encodeStatus (e :: es) = e.encode ++ encodeStatus es := by simp [encodeStatus]
    rw [hsplit, List.forall_mem_cons, ← ih]
    by_cases h : e.Decodable
    · rw [parsePorcelainStatus_decodable lsFiles h]
      cases parsePorcelainStatus lsFiles (encodeStatus es) <;> simp [h]
    · -- the first summary is wrong already, whatever becomes of the rest
      obtain ⟨d, rest, hd, hparse⟩ := parsePorcelainStatus_not_decodable lsFiles h (encodeStatus es)
      rw [hparse]
      cases parsePorcelainStatus lsFiles rest <;> simp [h, hd]

end Decoding

/-- `git mv old new` gives the entry `R  new` with the original path `old`. -/
def renamedEntry : StatusEntry where
  x := .renamed
  y := .unmodified
  documented := rfl
  path := ⟨"new".toList, by decide⟩
  orig := ⟨"old".toList, by decide⟩
  orig_ne := by decide
  untracked_file := by decide

/-- A staged rename is decoded with its paths exchanged. -/
theorem parsePorcelainStatus_staged_rename :
    encodeStatus [renamedEntry] = "R  new\x00old\x00".toList ∧
      parsePorcelainStatus (ε := Unit) (fun _ => .ok []) (encodeStatus [renamedEntry])
        = .ok [.new (some "new".toList) (some "old".toList)] ∧
      parsePorcelainStatus (ε := Unit) (fun _ => .ok []) (encodeStatus [renamedEntry])
        ≠ .ok ([renamedEntry].map StatusEntry.summary) := by
  have hparse : parsePorcelainStatus (ε := Unit) (fun _ => .ok []) (encodeStatus [renamedEntry])
      = .ok [.new (some "new".toList) (some "old".toList)] := by
    have h := parsePorcelainStatus_pair (ε := Unit) (fun _ => .ok []) (e := renamedEntry) rfl []
    simpa [encodeStatus, parsePorcelainStatus, renamedEntry] using h
  refine ⟨rfl, hparse, ?_⟩
  rw [hparse]
  decide

end Builderbot.Git
