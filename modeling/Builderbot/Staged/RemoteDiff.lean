import Builderbot.Git.Hunks

/-!
# Alignments from unified diff text

The remote diff path of `apps/staged/src-tauri/src/diff_commands.rs`. A remote workspace sends the
text of `git diff --unified=0`; `parse_unified_hunks` reads the hunk headers out of it and
`compute_remote_alignments` is a second copy of the loop of `compute_alignments_from_hunks`.

The two loops agree on every list of hunks in order (`remoteLoop_eq_assemble`), but the parser
subtracts one from every start, also from the start of a side without lines, where git already
reports the line before the change. `remote_alignments_eq_local_iff` says exactly when this matters.
-/

namespace Builderbot.Staged

open Builderbot.Lib.Text Builderbot.Git

/-- A hunk as the remote path reads it from the patch text. -/
structure RemoteHunk where
  oldStart : ℕ
  oldLines : ℕ
  newStart : ℕ
  newLines : ℕ
deriving DecidableEq, Repr

/-- `parse_hunk_range`: a start and an optional line count, the start made zero-based. -/
def parseHunkRange (raw : Text) : Option (ℕ × ℕ) := do
  let (startRaw, linesRaw) := match splitOnce [','] raw with
    | some (start, lines) => (start, lines)
    | none => (raw, ['1'])
  let start ← parseU32 (trim startRaw)
  let lines ← parseU32 (trim linesRaw)
  -- also for a side without lines
  let startZero := if start = 0 then 0 else start - 1
  some (startZero, lines)

/-- The text a hunk header starts with. -/
def hunkMarker : Text := ['@', '@', ' ', '-']

/-- The body of the loop of `parse_unified_hunks`; a line that is not a hunk header, or that does
not parse, is skipped. -/
def parseHunkLine (line : Text) : Option RemoteHunk := do
  let afterMinus ← List.dropPrefix? line hunkMarker
  let (oldPart, rest) ← splitOnce [' ', '+'] afterMinus
  let (newPart, _) ← splitOnce [' ', '@', '@'] rest
  let (oldStart, oldLines) ← parseHunkRange oldPart
  let (newStart, newLines) ← parseHunkRange newPart
  some ⟨oldStart, oldLines, newStart, newLines⟩

/-- `parse_unified_hunks`. -/
def parseUnifiedHunks (diffText : Text) : List RemoteHunk :=
  (lines diffText).filterMap parseHunkLine

/-- `remote_file_len`. -/
def remoteFileLen (f : Option File) : ℕ := lineCount f % u32Size

/-- The loop of `compute_remote_alignments`, followed by the region after the last hunk. -/
def remoteLoop (beforeLen afterLen : ℕ) : List RemoteHunk → ℕ → ℕ → Option (List Git.Alignment)
  | [], beforePos, afterPos => some (trailing beforeLen afterLen beforePos afterPos)
  | h :: hs, beforePos, afterPos => do
      let gap :=
        if beforePos < h.oldStart ∨ afterPos < h.newStart then
          [⟨⟨beforePos, h.oldStart⟩, ⟨afterPos, h.newStart⟩, false⟩]
        else []
      let beforeEnd ← addU32 h.oldStart h.oldLines
      let afterEnd ← addU32 h.newStart h.newLines
      let rest ← remoteLoop beforeLen afterLen hs beforeEnd afterEnd
      some (gap ++ ⟨⟨h.oldStart, beforeEnd⟩, ⟨h.newStart, afterEnd⟩, true⟩ :: rest)

/-- `compute_remote_alignments`. -/
def computeRemoteAlignments (hunks : List RemoteHunk) (before after : Option File) :
    Option (List Git.Alignment) :=
  if remoteFileLen before = 0 ∧ remoteFileLen after = 0 then some []
  else if hunks = [] then some (alignWithoutHunks (remoteFileLen before) (remoteFileLen after))
  else remoteLoop (remoteFileLen before) (remoteFileLen after) hunks 0 0

/-! ## Patch text -/

/-- A line of text. -/
abbrev Line := { t : Text // '\n' ∉ t }

theorem newline_notMem_nil : '\n' ∉ ([] : Text) := List.not_mem_nil

/-- One side of a hunk header as git prints it: a count of one may be left out. -/
structure RangeText where
  start : ℕ
  lines : ℕ
  omitCount : Bool
  omit_one : omitCount = true → lines = 1

/-- A side with its count. -/
def RangeText.written (start lines : ℕ) : RangeText := ⟨start, lines, false, fun h => absurd h Bool.false_ne_true⟩

/-- The text of one side of a hunk header. -/
def RangeText.render (r : RangeText) : Text :=
  decimal r.start ++ if r.omitCount then [] else ',' :: decimal r.lines

/-- What the first character of a line in a hunk without context says about it. -/
inductive BodyMark where
  | removed
  | added
  | noNewline

/-- The first character of a body line. -/
def BodyMark.char : BodyMark → Char
  | .removed => '-'
  | .added => '+'
  | .noNewline => '\\'

/-- A hunk of patch text: the two ranges, the section heading after the closing marker, and the
body. -/
structure HunkText where
  old : RangeText
  new : RangeText
  heading : Line
  body : List (BodyMark × Line)

/-- The numbers of the header. -/
def HunkText.raw (h : HunkText) : RawHunk := ⟨h.old.start, h.old.lines, h.new.start, h.new.lines⟩

/-- The header line `@@ -a,b +c,d @@ heading`. -/
def HunkText.header (h : HunkText) : Text :=
  hunkMarker ++ (h.old.render ++ [' ', '+'] ++
    (h.new.render ++ [' ', '@', '@'] ++ h.heading.val))

/-- The lines of a hunk. -/
def HunkText.lines (h : HunkText) : List Text :=
  h.header :: h.body.map fun l => l.1.char :: l.2.val

/-- The patch of one file: header lines that do not look like hunk headers, then the hunks. -/
structure Patch where
  preamble : List Line
  preamble_plain : ∀ l ∈ preamble, ¬ hunkMarker <+: l.val
  hunks : List HunkText

/-- The text of a patch. -/
def Patch.render (p : Patch) : Text :=
  unlines (p.preamble.map (·.val) ++ p.hunks.flatMap HunkText.lines)

/-- The hunk headers of a patch. -/
def Patch.rawHunks (p : Patch) : List RawHunk := p.hunks.map HunkText.raw

/-- The hunks are ordered, do not overlap, and stay within both line counts. Starts follow git's
numbering of a zero-based position. -/
def FitsFrom (beforeLen afterLen : ℕ) : List RawHunk → ℕ → ℕ → Prop
  | [], _, _ => True
  | h :: hs, b, a => ∃ p q,
      (h.oldStart = rawStart p h.oldLines ∧ h.newStart = rawStart q h.newLines) ∧
        (b ≤ p ∧ a ≤ q) ∧
        (p + h.oldLines ≤ beforeLen ∧ q + h.newLines ≤ afterLen) ∧
        FitsFrom beforeLen afterLen hs (p + h.oldLines) (q + h.newLines)

/-- The line counts of two files fit a list of hunk headers; line numbers are `u32` values. -/
def Fits (hunks : List RawHunk) (before after : Option File) : Prop :=
  (lineCount before < u32Size ∧ lineCount after < u32Size) ∧
    FitsFrom (lineCount before) (lineCount after) hunks 0 0

/-! ## Reading printed headers -/

/-- A printed range has only digits and a comma in it. -/
theorem notMem_render {c : Char} (hdigit : c.isDigit = false) (hcomma : c ≠ ',') (r : RangeText) :
    c ∉ r.render := by
  simp only [RangeText.render, List.mem_append, not_or]
  refine ⟨notMem_decimal hdigit, ?_⟩
  split
  · simp
  · simp only [List.mem_cons, not_or]
    exact ⟨hcomma, notMem_decimal hdigit⟩

/-- A printed range is read back with its start lowered by one. -/
theorem parseHunkRange_render {r : RangeText} (hs : r.start < u32Size) (hl : r.lines < u32Size) :
    parseHunkRange r.render = some (r.start - 1, r.lines) := by
  have hstart : (if r.start = 0 then 0 else r.start - 1) = r.start - 1 := by
    split <;> omega
  have hcomma : ',' ∉ decimal r.start := notMem_decimal (by decide)
  by_cases hom : r.omitCount = true
  · have hrender : r.render = decimal r.start := by simp [RangeText.render, hom]
    have hone : parseU32 (trim ['1']) = some 1 := by decide
    simp only [parseHunkRange, hrender, splitOnce_eq_none hcomma, trim_decimal,
      parseU32_decimal hs, hone, hstart, r.omit_one hom, Option.bind_eq_bind, Option.bind_some]
  · have hrender : r.render = decimal r.start ++ [','] ++ decimal r.lines := by
      simp [RangeText.render, hom]
    simp only [parseHunkRange, hrender, splitOnce_append hcomma, trim_decimal,
      parseU32_decimal hs, parseU32_decimal hl, hstart, Option.bind_eq_bind, Option.bind_some]

/-- What the parser makes of a header. -/
def RemoteHunk.ofRaw (h : RawHunk) : RemoteHunk :=
  ⟨h.oldStart - 1, h.oldLines, h.newStart - 1, h.newLines⟩

/-- The numbers of a header are `u32` values. -/
def RawHunk.InRange (h : RawHunk) : Prop :=
  (h.oldStart < u32Size ∧ h.oldLines < u32Size) ∧ h.newStart < u32Size ∧ h.newLines < u32Size

/-- A header line is parsed, whatever follows its closing marker. -/
theorem parseHunkLine_header {h : HunkText} (hr : RawHunk.InRange h.raw) (tail : Text) :
    parseHunkLine (hunkMarker ++ (h.old.render ++ [' ', '+'] ++
      (h.new.render ++ [' ', '@', '@'] ++ tail))) = some (RemoteHunk.ofRaw h.raw) := by
  obtain ⟨⟨hos, hol⟩, hns, hnl⟩ := hr
  have hspaceOld : ' ' ∉ h.old.render := notMem_render (by decide) (by decide) _
  have hspaceNew : ' ' ∉ h.new.render := notMem_render (by decide) (by decide) _
  simp only [parseHunkLine, List.dropPrefix?_append_of_beq _ (beq_self_eq_true hunkMarker),
    Option.bind_eq_bind, Option.bind_some]
  rw [splitOnce_append hspaceOld]
  simp only [Option.bind_some]
  rw [splitOnce_append hspaceNew]
  simp only [Option.bind_some, parseHunkRange_render hos hol, parseHunkRange_render hns hnl]
  rfl

/-- `lines` can only touch the end of a header, after its closing marker. -/
theorem stripCr_header (h : HunkText) :
    ∃ tail, stripCr h.header = hunkMarker ++ (h.old.render ++ [' ', '+'] ++
      (h.new.render ++ [' ', '@', '@'] ++ tail)) := by
  by_cases hhead : h.heading.val = []
  · refine ⟨[], ?_⟩
    have hsplit : h.header = (hunkMarker ++ (h.old.render ++ [' ', '+'] ++
        (h.new.render ++ [' ', '@']))) ++ ['@'] := by
      simp [HunkText.header, hhead]
    have hlast : h.header.getLast? = some '@' := by rw [hsplit, List.getLast?_concat]
    rw [stripCr, hlast, if_neg (by decide), HunkText.header, hhead]
  · refine ⟨stripCr h.heading.val, ?_⟩
    rw [HunkText.header, stripCr_append (by simp), stripCr_append (by simp),
      stripCr_append hhead]

/-- A line that does not start like a hunk header is skipped. -/
theorem parseHunkLine_plain {l : Text} (h : ¬ hunkMarker <+: l) :
    parseHunkLine (stripCr l) = none := by
  have hdrop : List.dropPrefix? (stripCr l) hunkMarker = none := by
    rw [Option.eq_none_iff_forall_ne_some]
    intro s hs
    obtain ⟨p, hp, heq⟩ := List.dropPrefix?_eq_some_iff.mp hs
    rw [eq_of_beq heq] at hp
    exact h ((prefix_stripCr_iff (by decide) l).mp (hp ▸ List.prefix_append hunkMarker s))
  simp [parseHunkLine, hdrop]

/-- The parser reads exactly the headers of a hunk's lines. -/
theorem filterMap_hunk_lines {h : HunkText} (hr : RawHunk.InRange h.raw) :
    (h.lines.map stripCr).filterMap parseHunkLine = [RemoteHunk.ofRaw h.raw] := by
  obtain ⟨tail, htail⟩ := stripCr_header h
  have hbody : ((h.body.map fun l => l.1.char :: l.2.val).map stripCr).filterMap parseHunkLine
      = [] := by
    rw [List.filterMap_eq_nil_iff]
    intro l hl
    obtain ⟨l', hl', rfl⟩ := List.mem_map.mp hl
    obtain ⟨⟨mark, text⟩, -, rfl⟩ := List.mem_map.mp hl'
    refine parseHunkLine_plain ?_
    -- body lines start with a mark, never with `@`
    rintro ⟨t, ht⟩
    cases mark <;> simp [BodyMark.char, hunkMarker] at ht
  simp only [HunkText.lines, List.map_cons, List.filterMap_cons, htail,
    parseHunkLine_header hr, hbody]

/-- The lines of a printed patch are read back. -/
theorem lines_render (p : Patch) :
    lines p.render = (p.preamble.map (·.val) ++ p.hunks.flatMap HunkText.lines).map stripCr := by
  refine lines_unlines fun l hl => ?_
  rcases List.mem_append.mp hl with hl | hl
  · obtain ⟨l', -, rfl⟩ := List.mem_map.mp hl
    exact l'.property
  · obtain ⟨h, -, hl⟩ := List.mem_flatMap.mp hl
    rcases List.mem_cons.mp hl with rfl | hl
    · have ho : '\n' ∉ h.old.render := notMem_render (by decide) (by decide) _
      have hn : '\n' ∉ h.new.render := notMem_render (by decide) (by decide) _
      simp [HunkText.header, hunkMarker, ho, hn, h.heading.property]
    · obtain ⟨⟨mark, text⟩, -, rfl⟩ := List.mem_map.mp hl
      cases mark <;> simp [BodyMark.char, text.property]

/-- The parser reads the headers of a patch in order, each start lowered by one. -/
theorem parseUnifiedHunks_render (p : Patch) (hr : ∀ h ∈ p.rawHunks, RawHunk.InRange h) :
    parseUnifiedHunks p.render = p.rawHunks.map RemoteHunk.ofRaw := by
  have hpre : ((p.preamble.map (·.val)).map stripCr).filterMap parseHunkLine = [] := by
    rw [List.filterMap_eq_nil_iff]
    intro l hl
    obtain ⟨l', hl', rfl⟩ := List.mem_map.mp hl
    obtain ⟨l'', hmem, rfl⟩ := List.mem_map.mp hl'
    exact parseHunkLine_plain (p.preamble_plain l'' hmem)
  rw [parseUnifiedHunks, lines_render, List.map_append, List.filterMap_append, hpre, List.nil_append]
  simp only [Patch.rawHunks] at hr ⊢
  generalize p.hunks = hs at hr
  induction hs with
  | nil => rfl
  | cons h hs ih =>
    rw [List.flatMap_cons, List.map_append, List.filterMap_append,
      filterMap_hunk_lines (hr h.raw (by simp)), ih fun x hx => hr x (by simp [hx])]
    rfl

/-! ## The two loops -/

/-- A remote hunk as a hunk of the local path. -/
def RemoteHunk.toHunk (h : RemoteHunk) : Hunk := ⟨h.oldStart, h.oldLines, h.newStart, h.newLines⟩

/-- The remote loop assembles the same alignments as the local one, as long as the ends of its hunks
are `u32` values. -/
theorem remoteLoop_eq_assemble (bl al : ℕ) {hs : List RemoteHunk}
    (h : ∀ x ∈ hs, x.oldStart + x.oldLines < u32Size ∧ x.newStart + x.newLines < u32Size)
    (b a : ℕ) : remoteLoop bl al hs b a = some (assemble bl al (hs.map RemoteHunk.toHunk) b a) := by
  induction hs generalizing b a with
  | nil => rfl
  | cons x xs ih =>
    obtain ⟨hb, ha⟩ := h x (by simp)
    have htail := ih (fun y hy => h y (by simp [hy])) (x.oldStart + x.oldLines)
      (x.newStart + x.newLines)
    simp only [remoteLoop, addU32_of_lt hb, addU32_of_lt ha, htail, Option.bind_eq_bind,
      Option.bind_some]
    rfl

/-- The callback turns fitting headers into hunks in order. -/
theorem inOrder_of_fitsFrom {bl al : ℕ} {hs : List RawHunk} {b a : ℕ}
    (h : FitsFrom bl al hs b a) : InOrder bl al (hs.map hunkCallback) b a := by
  induction hs generalizing b a with
  | nil => trivial
  | cons x xs ih =>
    obtain ⟨p, q, ⟨hp, hq⟩, hge, hle, htail⟩ := h
    have hx : hunkCallback x = ⟨p, x.oldLines, q, x.newLines⟩ := by
      simp only [hunkCallback, hp, hq, callbackStart_rawStart]
    simp only [List.map_cons, InOrder, hx]
    exact ⟨hge, hle, ih htail⟩

/-- The numbers of fitting headers, and the ends the remote path computes from them, are bounded by
the line counts. -/
theorem bounds_of_fitsFrom {bl al : ℕ} {hs : List RawHunk} {b a : ℕ} (h : FitsFrom bl al hs b a) :
    ∀ x ∈ hs, (x.oldStart ≤ bl ∧ x.newStart ≤ al) ∧
      (x.oldStart - 1 + x.oldLines ≤ bl ∧ x.newStart - 1 + x.newLines ≤ al) := by
  induction hs generalizing b a with
  | nil => simp
  | cons x xs ih =>
    obtain ⟨p, q, ⟨hp, hq⟩, hge, hle, htail⟩ := h
    intro y hy
    rcases List.mem_cons.mp hy with rfl | hy
    · rw [hp, hq]
      unfold rawStart
      split <;> split <;> omega
    · exact ih htail y hy

/-- The condition under which the remote path reads a header as the local one does: a side without
lines reports position zero. -/
def ZeroSidesAtStart (h : RawHunk) : Prop :=
  (h.oldLines = 0 → h.oldStart = 0) ∧ (h.newLines = 0 → h.newStart = 0)

/-- The two conversions of a start agree unless the side has no lines and a nonzero start. -/
theorem sub_one_eq_callbackStart_iff (start lines : ℕ) :
    start - 1 = callbackStart start lines ↔ (lines = 0 → start = 0) := by
  unfold callbackStart
  split_ifs <;> omega

/-- The two conversions of a header agree exactly on headers whose sides without lines start at
zero. -/
theorem toHunk_ofRaw_eq_iff (h : RawHunk) :
    (RemoteHunk.ofRaw h).toHunk = hunkCallback h ↔ ZeroSidesAtStart h := by
  simp only [RemoteHunk.ofRaw, RemoteHunk.toHunk, hunkCallback, Hunk.mk.injEq, true_and, and_true,
    sub_one_eq_callbackStart_iff, ZeroSidesAtStart]

/-- **When the remote path agrees with the local one.** For every patch and every pair of files its
hunks fit, the local path computes alignments, and the remote path computes the same ones if and
only if every side without lines in the patch has start zero, that is, every pure insertion is at
the top of the old file and every pure deletion at the top of the new one. -/
theorem remote_alignments_eq_local_iff (p : Patch) (before after : Option File)
    (hfit : Fits p.rawHunks before after) :
    ∃ as, computeAlignmentsFromHunks (p.rawHunks.map hunkCallback) before after = some as ∧
      (computeRemoteAlignments (parseUnifiedHunks p.render) before after = some as ↔
        ∀ h ∈ p.rawHunks, ZeroSidesAtStart h) := by
  obtain ⟨⟨hbl, hal⟩, hfits⟩ := hfit
  have hbounds := bounds_of_fitsFrom hfits
  have hlocal := alignLoop_eq_assemble hbl hal (inOrder_of_fitsFrom hfits)
  have hparse : parseUnifiedHunks p.render = p.rawHunks.map RemoteHunk.ofRaw :=
    parseUnifiedHunks_render p fun h hh => by
      have := hbounds h hh
      refine ⟨⟨?_, ?_⟩, ?_, ?_⟩ <;> omega
  have hends : ∀ x ∈ p.rawHunks.map RemoteHunk.ofRaw,
      x.oldStart + x.oldLines < u32Size ∧ x.newStart + x.newLines < u32Size := by
    intro x hx
    obtain ⟨h, hh, rfl⟩ := List.mem_map.mp hx
    have := hbounds h hh
    simp only [RemoteHunk.ofRaw]
    omega
  have hremote := remoteLoop_eq_assemble (lineCount before) (lineCount after) hends 0 0
  simp only [hparse, computeAlignmentsFromHunks, computeRemoteAlignments, fileLen, remoteFileLen,
    Nat.mod_eq_of_lt hbl, Nat.mod_eq_of_lt hal, List.map_eq_nil_iff]
  by_cases hempty : lineCount before = 0 ∧ lineCount after = 0
  · -- without lines on either side every hunk is at position zero
    refine ⟨[], by rw [if_pos hempty], ?_⟩
    rw [if_pos hempty]
    refine ⟨fun _ h hh => ?_, fun _ => rfl⟩
    have := hbounds h hh
    exact ⟨fun _ => by omega, fun _ => by omega⟩
  · rw [if_neg hempty, if_neg hempty]
    by_cases hnil : p.rawHunks = []
    · rw [if_pos hnil, if_pos hnil]
      exact ⟨_, rfl, fun _ => by simp [hnil], fun _ => rfl⟩
    · rw [if_neg hnil, if_neg hnil, hlocal, hremote]
      refine ⟨_, rfl, ?_⟩
      rw [Option.some.injEq, List.map_map]
      constructor
      · -- equal alignments have equal changed regions, and these are the hunks
        intro heq h hh
        have hch := congrArg (fun as => (as.filter (·.changed)).map Alignment.toHunk) heq
        simp only [assemble_changed] at hch
        exact (toHunk_ofRaw_eq_iff h).mp (List.map_inj_left.mp hch h hh)
      · intro hzero
        have hmap : p.rawHunks.map (RemoteHunk.toHunk ∘ RemoteHunk.ofRaw)
            = p.rawHunks.map hunkCallback :=
          List.map_congr_left fun h hh => (toHunk_ofRaw_eq_iff h).mpr (hzero h hh)
        rw [hmap]

/-- A text file with the given number of lines `l`. -/
def textFile (n : ℕ) : Option File := some ⟨['f'], .text (List.replicate n ['l'])⟩

/-- The patch `@@ -2,3 +2,2 @@` of a modification. -/
def modificationPatch : Patch where
  preamble := [⟨['+', '+', '+', ' ', 'b'], by decide⟩]
  preamble_plain := by decide
  hunks := [⟨⟨2, 3, false, by decide⟩, ⟨2, 2, false, by decide⟩, ⟨[], by decide⟩,
    [(.removed, ⟨['a'], by decide⟩), (.added, ⟨['b'], by decide⟩)]⟩]

theorem fits_modificationPatch : Fits modificationPatch.rawHunks (textFile 6) (textFile 5) :=
  ⟨by decide, 1, 1, by decide, by decide, by decide, trivial⟩

/-- Both paths agree on the modification of the unit test. -/
theorem remote_alignments_eq_local_modification :
    Fits modificationPatch.rawHunks (textFile 6) (textFile 5) ∧
      ∃ as, computeAlignmentsFromHunks (modificationPatch.rawHunks.map hunkCallback)
          (textFile 6) (textFile 5) = some as ∧
        computeRemoteAlignments (parseUnifiedHunks modificationPatch.render) (textFile 6) (textFile 5) = some as := by
  obtain ⟨as, hlocal, hremote⟩ := remote_alignments_eq_local_iff modificationPatch (textFile 6) (textFile 5)
    fits_modificationPatch
  refine ⟨fits_modificationPatch, as, hlocal, hremote.mpr fun h hh => ?_⟩
  obtain rfl := List.mem_singleton.mp hh
  exact ⟨by decide, by decide⟩

/-- The patch `@@ -3,0 +4,2 @@` of a pure insertion after the third line. -/
def insertionPatch : Patch where
  preamble := [⟨['+', '+', '+', ' ', 'b'], by decide⟩]
  preamble_plain := by decide
  hunks := [⟨⟨3, 0, false, by decide⟩, ⟨4, 2, false, by decide⟩, ⟨[], by decide⟩,
    [(.added, ⟨['a'], by decide⟩), (.added, ⟨['b'], by decide⟩)]⟩]

/-- The pure insertion of the unit test `test_alignments_pure_insertion`: the local path puts the
empty old span at line 3, the remote path at line 2, and the two results differ. -/
theorem remote_alignments_ne_local_insertion :
    Fits insertionPatch.rawHunks (textFile 5) (textFile 7) ∧
      computeAlignmentsFromHunks (insertionPatch.rawHunks.map hunkCallback)
          (textFile 5) (textFile 7)
        = some [⟨⟨0, 3⟩, ⟨0, 3⟩, false⟩, ⟨⟨3, 3⟩, ⟨3, 5⟩, true⟩, ⟨⟨3, 5⟩, ⟨5, 7⟩, false⟩] ∧
      computeRemoteAlignments (parseUnifiedHunks insertionPatch.render) (textFile 5) (textFile 7)
        = some [⟨⟨0, 2⟩, ⟨0, 3⟩, false⟩, ⟨⟨2, 2⟩, ⟨3, 5⟩, true⟩, ⟨⟨2, 5⟩, ⟨5, 7⟩, false⟩] ∧
      computeRemoteAlignments (parseUnifiedHunks insertionPatch.render) (textFile 5) (textFile 7)
        ≠ computeAlignmentsFromHunks (insertionPatch.rawHunks.map hunkCallback)
          (textFile 5) (textFile 7) := by
  refine ⟨⟨by decide, 3, 3, by decide, by decide, by decide, trivial⟩, by decide, by decide, ?_⟩
  decide

end Builderbot.Staged
