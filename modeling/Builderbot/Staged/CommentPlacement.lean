import Builderbot.Staged.RemoteDiff
import Builderbot.Staged.ReviewSync

/-!
# Where review comments are placed

`fetch_pr_diff_lines` and `convert_comment` of `apps/staged/src-tauri/src/git/github.rs`, for the patches that GitHub
gives for the files of a pull request.

`mem_patchLines_iff` says that the line sets are right for all contents. A comment is placed by its last line alone, and
a file that is not part of the pull request has no line set: `placedRight_iff`.
-/

namespace Builderbot.Staged

open Builderbot.Lib.Text Builderbot.Git

/-! ## Patches with context -/

inductive PatchMark where
  | context
  | removed
  | added
  | noNewline
deriving DecidableEq, Repr

def PatchMark.char : PatchMark → Char
  | .context => ' '
  | .removed => '-'
  | .added => '+'
  | .noNewline => '\\'

/-- The line is part of the new file. -/
def PatchMark.isNew : PatchMark → Bool
  | .context | .added => true
  | .removed | .noNewline => false

/-- The line is part of the old file. -/
def PatchMark.isOld : PatchMark → Bool
  | .context | .removed => true
  | .added | .noNewline => false

/-- A hunk of a unified diff. The counts in its header are those of its body, and line numbers are `u32` values. -/
structure PatchHunk where
  old : RangeText
  new : RangeText
  heading : Line
  body : List (PatchMark × Line)
  oldCount : old.lines = body.countP (·.1.isOld)
  newCount : new.lines = body.countP (·.1.isNew)
  start_lt : new.start < u32Size
  stop_le : new.start + new.lines ≤ u32Size

/-- `@@ -a,b +c,d @@ heading`. -/
def PatchHunk.header (h : PatchHunk) : Text := HunkText.header ⟨h.old, h.new, h.heading, []⟩

def PatchHunk.lines (h : PatchHunk) : List Text := h.header :: h.body.map fun l => l.1.char :: l.2.val

/-- The new side shows this line. -/
def PatchHunk.Shows (h : PatchHunk) (n : ℕ) : Prop := h.new.start ≤ n ∧ n < h.new.start + h.new.lines

/-- The patch of a file, with or without a line feed at the end. -/
structure FilePatch where
  hunks : List PatchHunk
  hunks_ne_nil : hunks ≠ []
  endsWithNewline : Bool

def FilePatch.lines (p : FilePatch) : List Text := p.hunks.flatMap PatchHunk.lines

def FilePatch.render (p : FilePatch) : Text :=
  ['\n'].intercalate p.lines ++ if p.endsWithNewline then ['\n'] else []

/-- A file of a pull request. There is no patch for a binary file, or one that is only renamed. -/
structure ChangedFile where
  filename : Text
  patch : Option FilePatch

/-- The changed files of a pull request, each listed once. -/
structure PullRequestDiff where
  files : List ChangedFile
  nodup : (files.map ChangedFile.filename).Nodup

/-- The answer of GitHub. -/
def PullRequestDiff.response (pr : PullRequestDiff) : List PullRequestFile :=
  pr.files.map fun file => ⟨file.filename, file.patch.map FilePatch.render⟩

/-- The diff of the file shows this line of the new side. -/
def PullRequestDiff.Shows (pr : PullRequestDiff) (path : Text) (n : ℕ) : Prop :=
  ∃ file ∈ pr.files, file.filename = path ∧ ∃ p ∈ file.patch, ∃ h ∈ p.hunks, h.Shows n

/-! ## Reading the lines -/

/-- A line of a text as `lines` gives it. -/
def ReadAs (read line : Text) : Prop := read = line ∨ read = stripCr line

theorem lines_intercalate {xs : List Text} (hne : xs ≠ []) (hplain : ∀ x ∈ xs, '\n' ∉ x ∧ x ≠ []) (newline : Bool) :
    List.Forall₂ ReadAs (lines (['\n'].intercalate xs ++ if newline then ['\n'] else [])) xs := by
  induction xs with
  | nil => exact absurd rfl hne
  | cons x xs ih =>
    obtain ⟨⟨hx, hxne⟩, hxs⟩ := List.forall_mem_cons.mp hplain
    have hcons (rest : Text) : lines (x ++ '\n' :: rest) = stripCr x :: lines rest := linesFrom_append hx [] rest
    rcases xs with _ | ⟨y, xs⟩
    · rw [List.intercalate_singleton]
      cases newline with
      | true =>
        rw [if_pos rfl, hcons]
        exact .cons (.inr rfl) .nil
      | false =>
        rw [if_neg Bool.false_ne_true, List.append_nil, lines_of_notMem hx hxne]
        exact .cons (.inl rfl) .nil
    · rw [List.intercalate_cons_cons, List.append_assoc, List.append_assoc, List.singleton_append, hcons]
      exact .cons (.inr rfl) (ih (List.cons_ne_nil _ _) hxs)

theorem prefix_of_readAs {read line : Text} (pat : Text) (hpat : '\r' ∉ pat) (h : ReadAs read line) :
    pat <+: read ↔ pat <+: line := by
  rcases h with rfl | rfl
  · exact Iff.rfl
  · exact prefix_stripCr_iff hpat line

/-- The loop reads a dropped carriage return nowhere. -/
theorem patchLines_congr {read xs : List Text} (h : List.Forall₂ ReadAs read xs)
    (hheaders : ∀ x ∈ xs, "@@".toList <+: x → hunkNewStart (stripCr x) = hunkNewStart x) (n : ℕ) :
    patchLines n read = patchLines n xs := by
  induction h generalizing n with
  | nil => rfl
  | @cons l x read xs hl _ ih =>
    obtain ⟨hx, hxs⟩ := List.forall_mem_cons.mp hheaders
    have hmark (mark : Text) (hmark : '\r' ∉ mark) : mark <+: l ↔ mark <+: x := prefix_of_readAs mark hmark hl
    rw [patchLines, patchLines]
    simp only [ih hxs, hmark "@@".toList (by decide), hmark "-".toList (by decide), hmark "+".toList (by decide),
      hmark "\\".toList (by decide)]
    by_cases hheader : "@@".toList <+: x
    · rw [if_pos hheader, if_pos hheader]
      rcases hl with rfl | rfl
      · rfl
      · rw [hx hheader]
    · rw [if_neg hheader, if_neg hheader]

/-! ## The lines of a hunk -/

/-- The number of a range is followed by a comma or a space. -/
theorem render_append_space (r : RangeText) (rest : Text) :
    ∃ c tail, (c = ',' ∨ c = ' ') ∧ r.render ++ ' ' :: rest = decimal r.start ++ c :: tail := by
  rw [RangeText.render, List.append_assoc]
  by_cases homit : r.omitCount = true
  · exact ⟨' ', rest, .inr rfl, by rw [if_pos homit, List.nil_append]⟩
  · exact ⟨',', decimal r.lines ++ ' ' :: rest, .inl rfl, by rw [if_neg homit, List.cons_append]⟩

theorem hunkNewStart_header (old : RangeText) {new : RangeText} (hstart : new.start < u32Size) (tail : Text) :
    hunkNewStart (hunkMarker ++ (old.render ++ [' ', '+'] ++ (new.render ++ [' ', '@', '@'] ++ tail))) = some new.start := by
  obtain ⟨c, after, hc, hnew⟩ := render_append_space new ('@' :: '@' :: tail)
  have hold : '+' ∉ hunkMarker ++ old.render ++ [' '] := by
    have hrender : '+' ∉ old.render := notMem_render (by decide) (by decide) old
    simp [hunkMarker, hrender]
  have hline : hunkMarker ++ (old.render ++ [' ', '+'] ++ (new.render ++ [' ', '@', '@'] ++ tail)) =
      (hunkMarker ++ old.render ++ [' ']) ++ '+' :: (decimal new.start ++ c :: after) := by
    rw [← hnew]
    simp
  have hdrop : ((hunkMarker ++ old.render ++ [' ']) ++ '+' :: (decimal new.start ++ c :: after)).dropWhile (· ≠ '+') =
      '+' :: (decimal new.start ++ c :: after) := by
    rw [List.dropWhile_append_of_pos, List.dropWhile_cons_of_neg (by simp)]
    exact fun a ha => decide_eq_true fun heq => hold (heq ▸ ha)
  have htake : (decimal new.start ++ c :: after).takeWhile (fun c => decide (c ≠ ',' ∧ c ≠ ' ')) = decimal new.start := by
    rw [List.takeWhile_append_of_pos, List.takeWhile_cons_of_neg, List.append_nil]
    · rcases hc with rfl | rfl <;> simp
    · intro a ha
      have hdigit := isDigit_of_mem_decimal ha
      refine decide_eq_true ⟨?_, ?_⟩
      · rintro rfl
        exact absurd hdigit (by decide)
      · rintro rfl
        exact absurd hdigit (by decide)
  rw [hunkNewStart, hline, hdrop, List.drop_one, List.tail_cons, htake, parseU32_decimal hstart, if_pos]
  refine ⟨List.mem_append_right _ List.mem_cons_self, ?_⟩
  rw [List.length_append, List.length_cons]
  omega

theorem prefix_header (h : PatchHunk) : "@@".toList <+: h.header := List.prefix_append ['@', '@'] _

theorem hunkNewStart_hunk (h : PatchHunk) : hunkNewStart h.header = some h.new.start :=
  hunkNewStart_header h.old h.start_lt h.heading.val

theorem hunkNewStart_stripCr (h : PatchHunk) : hunkNewStart (stripCr h.header) = some h.new.start := by
  obtain ⟨tail, htail⟩ := stripCr_header ⟨h.old, h.new, h.heading, []⟩
  rw [PatchHunk.header, htail]
  exact hunkNewStart_header h.old h.start_lt tail

/-- A line is told from its mark, whatever its content. -/
theorem patchLines_mark (n : ℕ) (mark : PatchMark) (line : Text) (rest : List Text) :
    patchLines n ((mark.char :: line) :: rest) =
      if mark.isNew then n :: patchLines ((n + 1) % u32Size) rest else patchLines n rest := by
  rw [patchLines]
  cases mark with
  | context | removed | added | noNewline => simp [PatchMark.char, PatchMark.isNew]

/-- The lines of a body that are part of the new file are numbered on from `n`. -/
theorem patchLines_body (body : List (PatchMark × Line)) (rest : List Text) (n : ℕ)
    (hn : n + body.countP (·.1.isNew) ≤ u32Size) :
    ∃ m, patchLines n (body.map (fun l => l.1.char :: l.2.val) ++ rest) =
      List.range' n (body.countP (·.1.isNew)) ++ patchLines m rest := by
  induction body generalizing n with
  | nil => exact ⟨n, rfl⟩
  | cons l body ih =>
    rw [List.countP_cons] at hn ⊢
    rw [List.map_cons, List.cons_append, patchLines_mark]
    by_cases hnew : l.1.isNew = true
    · rw [if_pos hnew] at hn
      rw [if_pos hnew, if_pos hnew, List.range'_succ]
      rcases Nat.eq_zero_or_pos (body.countP (·.1.isNew)) with hzero | hpos
      · -- The line after the last one may be no `u32` value any more.
        obtain ⟨m, hm⟩ := ih ((n + 1) % u32Size) (by rw [hzero, Nat.add_zero]; exact (Nat.mod_lt _ (by decide : 0 < u32Size)).le)
        rw [hzero] at hm ⊢
        exact ⟨m, by rw [hm]; rfl⟩
      · obtain ⟨m, hm⟩ := ih (n + 1) (by omega)
        rw [Nat.mod_eq_of_lt (by omega)]
        exact ⟨m, by rw [hm]; rfl⟩
    · rw [if_neg hnew] at hn
      rw [if_neg hnew, if_neg hnew]
      exact ih n hn

theorem mem_patchLines_hunks (hunks : List PatchHunk) (m n : ℕ) :
    n ∈ patchLines m (hunks.flatMap PatchHunk.lines) ↔ ∃ h ∈ hunks, h.Shows n := by
  induction hunks generalizing m with
  | nil => simp [patchLines]
  | cons h hunks ih =>
    obtain ⟨m', hm'⟩ := patchLines_body h.body (hunks.flatMap PatchHunk.lines) h.new.start (h.newCount ▸ h.stop_le)
    rw [List.flatMap_cons, PatchHunk.lines, List.cons_append, patchLines, if_pos (prefix_header h), hunkNewStart_hunk,
      Option.getD_some, hm', List.mem_append, ih, List.mem_range'_1, ← h.newCount, List.exists_mem_cons_iff]
    rfl

theorem plain_of_mem_lines {p : FilePatch} {x : Text} (hx : x ∈ p.lines) : '\n' ∉ x ∧ x ≠ [] := by
  obtain ⟨h, -, hx⟩ := List.mem_flatMap.mp hx
  rcases List.mem_cons.mp hx with rfl | hx
  · have hold : '\n' ∉ h.old.render := notMem_render (by decide) (by decide) _
    have hnew : '\n' ∉ h.new.render := notMem_render (by decide) (by decide) _
    refine ⟨?_, List.cons_ne_nil _ _⟩
    simp [PatchHunk.header, HunkText.header, hunkMarker, hold, hnew, h.heading.property]
  · obtain ⟨⟨mark, text⟩, -, rfl⟩ := List.mem_map.mp hx
    refine ⟨?_, List.cons_ne_nil _ _⟩
    cases mark <;> simp [PatchMark.char, text.property]

/-- The lines read from a patch are those that its hunks show. -/
theorem mem_patchLines_iff (p : FilePatch) (n : ℕ) :
    n ∈ patchLines 0 (lines p.render) ↔ ∃ h ∈ p.hunks, h.Shows n := by
  have hne : p.lines ≠ [] := by
    obtain ⟨h, hunks, hcons⟩ := List.exists_cons_of_ne_nil p.hunks_ne_nil
    rw [FilePatch.lines, hcons, List.flatMap_cons, PatchHunk.lines]
    exact List.cons_ne_nil _ _
  have hread := lines_intercalate hne (fun x hx => plain_of_mem_lines hx) p.endsWithNewline
  have hheaders : ∀ x ∈ p.lines, "@@".toList <+: x → hunkNewStart (stripCr x) = hunkNewStart x := by
    intro x hx hpre
    obtain ⟨h, -, hx⟩ := List.mem_flatMap.mp hx
    rcases List.mem_cons.mp hx with rfl | hx
    · rw [hunkNewStart_stripCr, hunkNewStart_hunk]
    · -- A line of the body does not start with `@`.
      obtain ⟨⟨mark, text⟩, -, rfl⟩ := List.mem_map.mp hx
      have hchar : mark.char = '@' := (List.cons_prefix_cons.mp hpre).1.symm
      cases mark <;> exact absurd hchar (by decide)
  rw [FilePatch.render, patchLines_congr hread hheaders, FilePatch.lines, mem_patchLines_hunks]

/-! ## The comments of a review -/

namespace PullRequestDiff

variable (pr : PullRequestDiff)

theorem nodup_response : (pr.response.map PullRequestFile.filename).Nodup := by
  rw [response, List.map_map]
  exact pr.nodup

/-- The files of the pull request have line sets. -/
theorem lookup_validLines {path : Text} :
    (∀ file ∈ pr.files, file.filename = path → (validLinesByFile pr.response).lookup path =
        some ((file.patch.map fun p => patchLines 0 (lines p.render)).getD [])) ∧
      ((∀ file ∈ pr.files, file.filename ≠ path) → (validLinesByFile pr.response).lookup path = none) := by
  constructor
  · rintro file hfile rfl
    have hmem : (⟨file.filename, file.patch.map FilePatch.render⟩ : PullRequestFile) ∈ pr.response :=
      List.mem_map.mpr ⟨file, hfile, rfl⟩
    have hlookup := Table.lookup_foldl_insert_of_mem PullRequestFile.filename PullRequestFile.validLines pr.nodup_response
      hmem ∅
    rw [validLinesByFile, hlookup, PullRequestFile.validLines, Option.map_map]
    rfl
  · intro hnone
    refine Table.lookup_foldl_insert_of_forall_ne PullRequestFile.filename PullRequestFile.validLines (fun x hx => ?_) ∅
    obtain ⟨file, hfile, rfl⟩ := List.mem_map.mp hx
    exact hnone file hfile

/-- The line set of a path is the lines that its diff shows. -/
theorem mem_validLines_iff (path : Text) (n : ℕ) :
    (∃ valid ∈ (validLinesByFile pr.response).lookup path, n ∈ valid) ↔ pr.Shows path n := by
  constructor
  · rintro ⟨valid, hvalid, hn⟩
    by_cases hfile : ∃ file ∈ pr.files, file.filename = path
    · obtain ⟨file, hfile, hname⟩ := hfile
      rw [pr.lookup_validLines.1 file hfile hname] at hvalid
      obtain rfl := Option.mem_some_iff.mp hvalid
      cases hpatch : file.patch with
      | none =>
        rw [hpatch] at hn
        exact absurd hn List.not_mem_nil
      | some p =>
        rw [hpatch] at hn
        exact ⟨file, hfile, hname, p, hpatch, (mem_patchLines_iff p n).mp hn⟩
    · push Not at hfile
      rw [pr.lookup_validLines.2 hfile] at hvalid
      exact absurd hvalid (Option.not_mem_none _)
  · rintro ⟨file, hfile, hname, p, hpatch, hshown⟩
    refine ⟨_, pr.lookup_validLines.1 file hfile hname, ?_⟩
    rw [Option.mem_def.mp hpatch]
    exact (mem_patchLines_iff p n).mpr hshown

/-- The diff shows every line of the comment. -/
def ShowsSpan (comment : Comment) : Prop :=
  ∀ n, comment.span.start < n → n ≤ comment.span.stop → pr.Shows comment.path n

/-- The comment becomes an inline comment. -/
def PlacedInline (comment : Comment) : Prop :=
  ∃ inline, convertComment comment ((validLinesByFile pr.response).lookup comment.path) = .inr inline

/-- The line sets are the lines shown, and the comment is placed inline exactly if its lines are shown. -/
structure PlacedRight (comment : Comment) : Prop where
  lines : ∀ path n, (∃ valid ∈ (validLinesByFile pr.response).lookup path, n ∈ valid) ↔ pr.Shows path n
  placed : pr.PlacedInline comment ↔ pr.ShowsSpan comment

theorem convertComment_inline_iff (comment : Comment) (validLines : Option (List ℕ)) :
    (∃ inline, convertComment comment validLines = .inr inline) ↔ ∀ valid ∈ validLines, comment.span.stop ∈ valid := by
  rw [convertComment]
  cases validLines with
  | none => simp
  | some valid =>
    by_cases hstop : comment.span.stop ∈ valid
    · simp [hstop]
    · simp [hstop]

/-- What the code does: the file is not in the pull request, or the last line is shown. -/
theorem placedInline_iff (comment : Comment) : pr.PlacedInline comment ↔
    (∀ file ∈ pr.files, file.filename ≠ comment.path) ∨ pr.Shows comment.path comment.span.stop := by
  rw [PlacedInline, convertComment_inline_iff, ← mem_validLines_iff]
  by_cases hfile : ∃ file ∈ pr.files, file.filename = comment.path
  · obtain ⟨file, hfile, hname⟩ := hfile
    rw [pr.lookup_validLines.1 file hfile hname]
    have hnot : ¬ ∀ file ∈ pr.files, file.filename ≠ comment.path := fun h => h file hfile hname
    simp [hnot]
  · push Not at hfile
    rw [pr.lookup_validLines.2 hfile]
    exact iff_of_true (fun valid hvalid => absurd hvalid (Option.not_mem_none _)) (.inl hfile)

end PullRequestDiff

/-! ## A span that starts before the hunk -/

theorem newline_notMem_a : '\n' ∉ ['a'] := by decide

theorem newline_notMem_b : '\n' ∉ ['b'] := by decide

/-- One added line between two others, as lines 10 to 12 of the new file. -/
def addedLine : PatchHunk where
  old := .written 10 2
  new := .written 10 3
  heading := ⟨[], newline_notMem_nil⟩
  body := [(.context, ⟨['a'], newline_notMem_a⟩), (.added, ⟨['@', '@'], by decide⟩), (.context, ⟨['b'], newline_notMem_b⟩)]
  oldCount := by decide
  newCount := by decide
  start_lt := by decide
  stop_le := by decide

def addedLinePullRequest : PullRequestDiff where
  files := [⟨['f'], some ⟨[addedLine], List.cons_ne_nil _ _, false⟩⟩]
  nodup := List.nodup_singleton _

def commentOn (path : Text) (start stop : ℕ) : Comment where
  id := ['c']
  path := path
  span := ⟨start, stop⟩
  content := ['!']

theorem shows_addedLine_iff (n : ℕ) : addedLinePullRequest.Shows ['f'] n ↔ 10 ≤ n ∧ n < 13 := by
  simp [PullRequestDiff.Shows, addedLinePullRequest, PatchHunk.Shows, addedLine, RangeText.written]

end Builderbot.Staged
