import Builderbot.Git.BranchState

/-!
# The batched state agrees with the local one

The script of `compute_branch_git_state_batched` prints what git answers, and the parser reads it line by
line. The two computations agree when the answers reach the parser as they are: `HEAD` has a commit, since
`git rev-parse HEAD` prints `HEAD` where there is none, and a fetch error starts with a line that is not
blank and has no later line that looks like one of the script's own. They also have to take the same
errors for a missing ref, which the script does not do at all when the branch is its own base.
-/

namespace Builderbot.Git

open Lib.Text

/-! ## Repositories -/

/-- A commit id as git prints it. -/
def isSha (t : Text) : Bool :=
  t.length = 40 && t.all fun c => c.isDigit || ('a' ≤ c && c ≤ 'f')

abbrev Sha := { t : Text // isSha t = true }

/-- A branch name; git allows no control characters. -/
abbrev BranchName := { t : Text // '\n' ∉ t ∧ '\r' ∉ t }

/-- A line of the short status. Git quotes paths with control characters. -/
structure StatusLine where
  x : StatusLetter
  y : StatusLetter
  path : Text
  quoted : '\n' ∉ path ∧ '\r' ∉ path

def StatusLine.text (line : StatusLine) : Text := line.x.char :: line.y.char :: ' ' :: line.path

/-- What a fetch changes: the commits that names stand for. -/
abbrev Refs := Text → Option Sha

/-- A repository: the commit of `HEAD`, which an unborn branch does not have, the branch that is checked
out, the status, and what git finds in the commit graph. -/
structure Repository where
  head : Option Sha
  branch : Option BranchName
  status : WorktreeStatusScope → Option (List StatusLine)
  leftRight : Sha → Sha → Option (ℕ × ℕ)
  mergeBase : Sha → Sha → Option Sha
  revCount : Sha → Sha → Option ℕ

namespace Repository

variable (r : Repository) (refs : Refs)

/-- The commit of a revision. -/
def resolve (rev : Text) : Option Sha :=
  if rev = headRev then r.head
  else if h : isSha rev = true then some ⟨rev, h⟩
  else refs rev

/-- What `merge-base` finds. -/
def forkPoint (left right : Text) : Option Sha := do
  r.mergeBase (← r.resolve refs left) (← r.resolve refs right)

/-- A command that prints a line or fails. -/
def printLine (answer : Option Text) : GitOutput :=
  match answer with
  | some t => ⟨t ++ ['\n'], true⟩
  | none => ⟨[], false⟩

/-- The answers of git. On an unborn branch `rev-parse HEAD` fails after it has printed `HEAD`. -/
def query : GitQuery → GitOutput
  | .revParseHead =>
    match r.head with
    | some sha => ⟨sha.val ++ ['\n'], true⟩
    | none => ⟨headRev ++ ['\n'], false⟩
  | .branchShowCurrent =>
    match r.branch with
    | some name => ⟨name.val ++ ['\n'], true⟩
    | none => ⟨[], true⟩
  | .status scope =>
    match r.status scope with
    | some statusLines => ⟨unlines (statusLines.map StatusLine.text), true⟩
    | none => ⟨[], false⟩
  | .revParseVerify reference => printLine ((r.resolve refs reference).map Subtype.val)
  | .leftRightCount left right => printLine do
      let (ahead, behind) ← r.leftRight (← r.resolve refs left) (← r.resolve refs right)
      return decimal ahead ++ '\t' :: decimal behind
  | .mergeBase left right => printLine ((r.forkPoint refs left right).map Subtype.val)
  | .revListCount left right => printLine do
      return decimal (← r.revCount (← r.resolve refs left) (← r.resolve refs right))

end Repository

/-! ## Values on a line -/

/-- The text stays on its line. -/
def OnLine (t : Text) : Prop := '\n' ∉ t ∧ '\r' ∉ t

/-- The output is one line, or nothing. -/
def IsLine (out : GitOutput) : Prop :=
  (∃ t, OnLine t ∧ out = ⟨t ++ ['\n'], true⟩) ∨ out.stdout = []

theorem onLine_of_forall {t : Text} {p : Char → Bool} (h : ∀ c ∈ t, p c = true)
    (hn : p '\n' = false) (hr : p '\r' = false) : OnLine t := by
  refine ⟨fun hmem => ?_, fun hmem => ?_⟩
  · have := h _ hmem
    rw [hn] at this
    cases this
  · have := h _ hmem
    rw [hr] at this
    cases this

theorem onLine_sha (sha : Sha) : OnLine sha.val := by
  have hall := sha.property
  simp only [isSha, Bool.and_eq_true, List.all_eq_true] at hall
  exact onLine_of_forall hall.2 (by decide) (by decide)

theorem onLine_decimal (n : ℕ) : OnLine (decimal n) :=
  ⟨notMem_decimal (by decide), notMem_decimal (by decide)⟩

theorem capture_newline {t : Text} (h : '\n' ∉ t) : capture (t ++ ['\n']) = t := by
  rw [capture, List.reverse_append, List.reverse_singleton, List.singleton_append,
    List.dropWhile_cons_of_pos (by decide)]
  rcases hrev : t.reverse with _ | ⟨c, cs⟩
  · rw [List.reverse_eq_nil_iff.mp hrev]
    rfl
  · have hc : c ≠ '\n' := by
      rintro rfl
      exact h (List.mem_reverse.mp (hrev ▸ List.mem_cons_self))
    rw [List.dropWhile_cons_of_neg (by simpa using hc), ← hrev, List.reverse_reverse]

namespace IsLine

variable {out : GitOutput}

theorem onLine_capture (h : IsLine out) : OnLine (capture out.stdout) := by
  rcases h with ⟨t, ht, rfl⟩ | h
  · rw [capture_newline ht.1]
    exact ht
  · rw [h]
    exact ⟨by simp [capture], by simp [capture]⟩

/-- What `run_git` gives is what the script captures. -/
theorem ok_bind (h : IsLine out) : out.ok.bind trimNonEmpty = trimNonEmpty (capture out.stdout) := by
  rcases h with ⟨t, ht, rfl⟩ | h
  · rw [capture_newline ht.1]
    show trimNonEmpty (t ++ ['\n']) = _
    rw [trimNonEmpty, trimNonEmpty, trim_concat t (by decide)]
  · rw [GitOutput.ok, h]
    split <;> rfl

theorem onLine_orEcho (h : IsLine out) {text : Text} (htext : OnLine text) :
    OnLine (capture (out.orEcho text)) := by
  rcases h with ⟨t, ht, rfl⟩ | h
  · show OnLine (capture (t ++ ['\n']))
    rw [capture_newline ht.1]
    exact ht
  · rw [GitOutput.orEcho, h]
    split
    · exact ⟨by simp [capture], by simp [capture]⟩
    · rw [List.nil_append, capture_newline htext.1]
      exact htext

/-- A number. -/
theorem parseCount_orEcho (h : IsLine out) :
    parseCount (some (trim (capture (out.orEcho ['0'])))) = parseCount (out.ok.bind trimNonEmpty) := by
  have hblank : ∀ t, parseCount (trimNonEmpty t) = parseCount (some (trim t)) := by
    intro t
    rw [trimNonEmpty]
    split
    · rename_i hnil
      rw [hnil]
      rfl
    · rfl
  rcases h with ⟨t, ht, rfl⟩ | h
  · show parseCount (some (trim (capture (t ++ ['\n'])))) = parseCount (trimNonEmpty (t ++ ['\n']))
    rw [capture_newline ht.1, hblank, trim_concat t (by decide)]
  · rw [GitOutput.orEcho, GitOutput.ok, h]
    split
    · decide
    · decide

/-- The words of a line. -/
theorem splitWhitespace_orEcho (h : IsLine out) :
    (parseCount (splitWhitespace (capture (out.orEcho ['0', ' ', '0'])))[0]?,
        parseCount (splitWhitespace (capture (out.orEcho ['0', ' ', '0'])))[1]?) = out.leftRight := by
  rcases h with ⟨t, ht, rfl⟩ | h
  · show (parseCount (splitWhitespace (capture (t ++ ['\n'])))[0]?,
        parseCount (splitWhitespace (capture (t ++ ['\n'])))[1]?) =
      (parseCount (splitWhitespace (t ++ ['\n']))[0]?, parseCount (splitWhitespace (t ++ ['\n']))[1]?)
    rw [capture_newline ht.1, splitWhitespace_concat t (by decide)]
  · rw [GitOutput.orEcho, GitOutput.leftRight, GitOutput.ok, h]
    split
    · rfl
    · decide

end IsLine

variable (found : Option Sha) {sha : Sha}

namespace Repository

variable (r : Repository) (refs : Refs)

theorem isLine_printLine {answer : Option Text} (h : ∀ t ∈ answer, OnLine t) :
    IsLine (printLine answer) := by
  rcases answer with _ | t
  · exact .inr rfl
  · exact .inl ⟨t, h t rfl, rfl⟩

theorem isLine_printLine_sha : IsLine (printLine (found.map Subtype.val)) := by
  refine isLine_printLine fun t ht => ?_
  obtain ⟨sha, -, rfl⟩ := Option.map_eq_some_iff.mp ht
  exact onLine_sha sha

theorem isLine_branch : IsLine (r.query refs .branchShowCurrent) := by
  rw [query]
  rcases r.branch with _ | name
  · exact .inr rfl
  · exact .inl ⟨name.val, name.property, rfl⟩

theorem isLine_leftRight (left right : Text) : IsLine (r.query refs (.leftRightCount left right)) := by
  refine isLine_printLine fun t ht => ?_
  simp only [Option.mem_def, Option.bind_eq_bind, Option.bind_eq_some_iff, Option.pure_def,
    Option.some.injEq] at ht
  obtain ⟨a, -, b, -, counts, -, rfl⟩ := ht
  have hfst := onLine_decimal counts.1
  have hsnd := onLine_decimal counts.2
  refine ⟨?_, ?_⟩
  · simp [hfst.1, hsnd.1]
  · simp [hfst.2, hsnd.2]

theorem isLine_mergeBase (left right : Text) : IsLine (r.query refs (.mergeBase left right)) := by
  exact isLine_printLine_sha _

theorem isLine_revCount (left right : Text) : IsLine (r.query refs (.revListCount left right)) := by
  refine isLine_printLine fun t ht => ?_
  simp only [Option.mem_def, Option.bind_eq_bind, Option.bind_eq_some_iff, Option.pure_def,
    Option.some.injEq] at ht
  obtain ⟨a, -, b, -, count, -, rfl⟩ := ht
  exact onLine_decimal count

variable {r}

/-- The commit of `HEAD` stands for `HEAD`. -/
theorem resolve_head (h : r.head = some sha) : r.resolve refs sha.val = r.resolve refs headRev := by
  have hne : sha.val ≠ headRev := by
    intro heq
    have hsha := sha.property
    rw [heq] at hsha
    revert hsha
    decide
  rw [resolve, if_neg hne, dif_pos sha.property, resolve, if_pos rfl, h]

theorem query_head (h : r.head = some sha) : r.query refs .revParseHead = ⟨sha.val ++ ['\n'], true⟩ := by
  rw [query, h]

theorem query_leftRight_head (h : r.head = some sha) (reference : Text) :
    r.query refs (.leftRightCount sha.val reference) =
      r.query refs (.leftRightCount headRev reference) := by
  rw [query, query, resolve_head refs h]

theorem query_mergeBase_head (h : r.head = some sha) (reference : Text) :
    r.query refs (.mergeBase sha.val reference) = r.query refs (.mergeBase headRev reference) := by
  rw [query, query, forkPoint, forkPoint, resolve_head refs h]

end Repository

/-! ## Reading the report -/

/-- The parser on a text, from a state. -/
def parseFrom (acc : BatchGitStateOutput × Bool) (text : Text) : BatchGitStateOutput × Bool :=
  (lines text).foldl parseBatchLine acc

theorem parseFrom_append (acc : BatchGitStateOutput × Bool) (pre post : Text) :
    parseFrom acc (pre ++ ['\n'] ++ post) = parseFrom (parseFrom acc (pre ++ ['\n'])) post := by
  rw [parseFrom, List.append_assoc, List.singleton_append, lines_append_newline, List.foldl_append]
  rfl

/-- One line. -/
theorem parseFrom_line (acc : BatchGitStateOutput × Bool) {line : Text} (h : OnLine line) (post : Text) :
    parseFrom acc (line ++ ['\n'] ++ post) = parseFrom (parseBatchLine acc line) post := by
  have hlines : lines (line ++ ['\n']) = [line] := by
    rw [lines, linesFrom_append h.1]
    simp [lines, linesFrom, stripCr_of_notMem h.2]
  have hone : parseFrom acc (line ++ ['\n']) = parseBatchLine acc line := by
    rw [parseFrom, hlines]
    rfl
  rw [parseFrom_append, hone]

variable (key : BatchKey)

theorem findKey_label (val : Text) : findKey (key.label ++ val) = some (key, val) := by
  cases key <;> simp [findKey, BatchKey.all, BatchKey.label, List.dropPrefix?]

theorem label_append_ne (val : Text) : key.label ++ val ≠ statusStart ∧ key.label ++ val ≠ statusEnd := by
  cases key <;> simp [BatchKey.label, statusStart, statusEnd]

theorem parseBatchLine_key (out : BatchGitStateOutput) (key : BatchKey) (val : Text) :
    parseBatchLine (out, false) (key.label ++ val) = (out.set val key, false) := by
  obtain ⟨hstart, hend⟩ := label_append_ne key val
  simp only [parseBatchLine, if_neg hstart, if_neg hend, findKey_label, Bool.false_eq_true, if_false]

theorem onLine_label : OnLine key.label := by
  cases key <;> exact ⟨by decide, by decide⟩

theorem OnLine.append {t u : Text} (ht : OnLine t) (hu : OnLine u) : OnLine (t ++ u) :=
  ⟨by simp [ht.1, hu.1], by simp [ht.2, hu.2]⟩

/-- A line with a value. -/
theorem parseFrom_printKey (out : BatchGitStateOutput) (key : BatchKey) {val : Text} (h : OnLine val)
    (post : Text) :
    parseFrom (out, false) (printKey key val ++ post) = parseFrom (out.set val key, false) post := by
  rw [printKey, parseFrom_line _ ((onLine_label key).append h), parseBatchLine_key]

/-! ### The status -/

/-- Lines joined by line feeds, as the parser collects them. -/
def joinLines (statusLines : List Text) : Text :=
  statusLines.foldl (fun text line => (if text ≠ [] then text ++ ['\n'] else text) ++ line) []

variable (line : StatusLine)

/-- A line of the status is not one of the two markers. -/
theorem StatusLine.text_ne : line.text ≠ statusStart ∧ line.text ≠ statusEnd := by
  refine ⟨fun h => ?_, fun h => ?_⟩
  · simp [StatusLine.text, statusStart] at h
  · simp [StatusLine.text, statusEnd] at h

theorem StatusLetter.onLine (x : StatusLetter) : x.char ≠ '\n' ∧ x.char ≠ '\r' := by
  cases x <;> decide

theorem StatusLine.onLine : OnLine line.text := by
  obtain ⟨hx, hx'⟩ := StatusLetter.onLine line.x
  obtain ⟨hy, hy'⟩ := StatusLetter.onLine line.y
  obtain ⟨hn, hr⟩ := line.quoted
  refine ⟨?_, ?_⟩
  · simp [StatusLine.text, hn, hx.symm, hy.symm]
  · simp [StatusLine.text, hr, hx'.symm, hy'.symm]

/-- The lines between the markers. -/
theorem parseFrom_status (out : BatchGitStateOutput) (statusLines : List StatusLine) (post : Text) :
    parseFrom (out, true) (unlines (statusLines.map StatusLine.text) ++ post) =
      parseFrom ({ out with
        statusLines := (statusLines.map StatusLine.text).foldl
          (fun text line => (if text ≠ [] then text ++ ['\n'] else text) ++ line) out.statusLines }, true)
        post := by
  induction statusLines generalizing out with
  | nil => rfl
  | cons line rest ih =>
    obtain ⟨hstart, hend⟩ := line.text_ne
    have hun : unlines ((line :: rest).map StatusLine.text) ++ post =
        line.text ++ ['\n'] ++ (unlines (rest.map StatusLine.text) ++ post) := by
      simp [unlines]
    rw [hun, parseFrom_line _ line.onLine]
    simp only [parseBatchLine, if_neg hstart, if_neg hend, if_true]
    rw [ih]
    rfl

variable {out : BatchGitStateOutput}

/-- The status, with its markers. -/
theorem parseFrom_statusBlock (hout : out.statusLines = []) (statusLines : List StatusLine) (post : Text) :
    parseFrom (out, false) (statusStart ++ ['\n'] ++
        (unlines (statusLines.map StatusLine.text) ++ (statusEnd ++ ['\n'] ++ post))) =
      parseFrom ({ out with statusLines := joinLines (statusLines.map StatusLine.text) }, false)
        post := by
  rw [parseFrom_line _ ⟨by decide, by decide⟩]
  have hstart : parseBatchLine (out, false) statusStart = (out, true) := rfl
  rw [hstart, parseFrom_status, parseFrom_line _ ⟨by decide, by decide⟩, hout]
  rfl

theorem joinLines_concat (statusLines : List Text) (line : Text) :
    joinLines (statusLines ++ [line]) =
      (if joinLines statusLines ≠ [] then joinLines statusLines ++ ['\n'] else joinLines statusLines) ++
        line := by
  rw [joinLines, List.foldl_append]
  rfl

/-- With a line feed at the end, the collected lines are the printed ones. -/
theorem joinLines_newline {statusLines : List Text} (hne : ∀ line ∈ statusLines, line ≠ []) :
    statusLines = [] ∨
      (joinLines statusLines ≠ [] ∧ joinLines statusLines ++ ['\n'] = unlines statusLines) := by
  induction statusLines using List.reverseRecOn with
  | nil => exact .inl rfl
  | append_singleton rest line ih =>
    have hline : line ≠ [] := hne line (by simp)
    rw [joinLines_concat]
    have hun : unlines (rest ++ [line]) = unlines rest ++ (line ++ ['\n']) := by simp [unlines]
    rcases ih fun l hl => hne l (List.mem_append_left _ hl) with rfl | ⟨hjoin, hnewline⟩
    · exact .inr ⟨by simpa [joinLines] using hline, by simp [joinLines, unlines]⟩
    · rw [if_pos hjoin, hnewline, hun, List.append_assoc]
      exact .inr ⟨by simp [hline], rfl⟩

theorem StatusLine.text_ne_nil : line.text ≠ [] := List.cons_ne_nil _ _

theorem lines_unlines_status (statusLines : List StatusLine) :
    lines (unlines (statusLines.map StatusLine.text)) = statusLines.map StatusLine.text := by
  rw [lines_unlines]
  · refine (List.map_congr_left fun l hl => ?_).trans (List.map_id _)
    obtain ⟨entry, -, rfl⟩ := List.mem_map.mp hl
    exact stripCr_of_notMem entry.onLine.2
  · intro l hl
    obtain ⟨entry, -, rfl⟩ := List.mem_map.mp hl
    exact entry.onLine.1

/-- The collected lines are read again as they were. -/
theorem lines_joinLines (statusLines : List StatusLine) :
    lines (joinLines (statusLines.map StatusLine.text)) = statusLines.map StatusLine.text := by
  induction statusLines using List.reverseRecOn with
  | nil => rfl
  | append_singleton rest line ih =>
    have hlast := lines_of_notMem line.onLine.1 line.text_ne_nil
    rw [List.map_append, List.map_singleton, joinLines_concat]
    have hne : ∀ l ∈ rest.map StatusLine.text, l ≠ [] := by
      intro l hl
      obtain ⟨entry, -, rfl⟩ := List.mem_map.mp hl
      exact entry.text_ne_nil
    rcases joinLines_newline hne with hnil | ⟨hjoin, hnewline⟩
    · rw [hnil]
      simpa [joinLines] using hlast
    · rw [if_pos hjoin, List.append_assoc, List.singleton_append, lines_append_newline, hnewline,
        lines_unlines_status, hlast]

/-! ### The error -/

/-- The error reaches the parser: its first line is not blank, and no later line looks like one of the
script. -/
def ReadableError (ferr : Text) : Prop :=
  ∃ first rest, lines (capture ferr ++ ['\n']) = first :: rest ∧ trim first ≠ [] ∧
    ∀ line ∈ rest, line ≠ statusStart ∧ findKey line = none

/-- The lines of a text that is printed after a label. -/
theorem lines_label_append {text first : Text} {rest : List Text}
    (h : lines (text ++ ['\n']) = first :: rest) :
    lines (key.label ++ text ++ ['\n']) = (key.label ++ first) :: rest := by
  obtain ⟨pre, post, hsplit, hpre⟩ :=
    List.eq_append_cons_of_mem (show '\n' ∈ text ++ ['\n'] by simp)
  have hlabel : '\n' ∉ key.label ++ pre := by simp [(onLine_label key).1, hpre]
  have hstrip : stripCr (key.label ++ pre) = key.label ++ stripCr pre := by
    rcases pre with _ | ⟨c, pre⟩
    · rw [List.append_nil, stripCr_of_notMem (onLine_label key).2]
      exact (List.append_nil _).symm
    · exact stripCr_append (List.cons_ne_nil _ _)
  rw [hsplit, lines, linesFrom_append hpre, List.reverse_nil, List.nil_append, List.cons.injEq] at h
  rw [List.append_assoc, hsplit, ← List.append_assoc, lines, linesFrom_append hlabel, List.reverse_nil,
    List.nil_append, hstrip, h.1, h.2]

/-- Later lines of the error are skipped. -/
theorem foldl_parseBatchLine_skip (out : BatchGitStateOutput) {rest : List Text}
    (h : ∀ line ∈ rest, line ≠ statusStart ∧ findKey line = none) :
    rest.foldl parseBatchLine (out, false) = (out, false) := by
  induction rest with
  | nil => rfl
  | cons line rest ih =>
    obtain ⟨⟨hstart, hkey⟩, hrest⟩ := List.forall_mem_cons.mp h
    have hline : parseBatchLine (out, false) line = (out, false) := by
      simp only [parseBatchLine, if_neg hstart, hkey, Bool.false_eq_true, if_false, ite_self]
    rw [List.foldl_cons, hline]
    exact ih hrest

/-- A readable error is found. -/
theorem ReadableError.parseFrom {ferr : Text} (h : ReadableError ferr) (out : BatchGitStateOutput)
    (post : Text) :
    ∃ err, parseFrom (out, false) (printKey .fetchErr (capture ferr) ++ post) =
      Git.parseFrom ({ out with fetchError := some err }, false) post := by
  obtain ⟨first, rest, hlines, hfirst, hrest⟩ := h
  refine ⟨trim first, ?_⟩
  have hset : out.set first .fetchErr = { out with fetchError := some (trim first) } := by
    simp only [BatchGitStateOutput.set, nonBlankOr, trimNonEmpty, if_neg hfirst, Option.some_or]
  have herror : Git.parseFrom (out, false) (BatchKey.fetchErr.label ++ capture ferr ++ ['\n']) =
      ({ out with fetchError := some (trim first) }, false) := by
    rw [Git.parseFrom, lines_label_append .fetchErr hlines, List.foldl_cons, parseBatchLine_key,
      foldl_parseBatchLine_skip _ hrest, hset]
  rw [printKey, parseFrom_append, herror]

theorem ReadableError.capture_ne_nil {ferr : Text} (h : ReadableError ferr) : capture ferr ≠ [] := by
  obtain ⟨first, rest, hlines, hfirst, -⟩ := h
  intro hnil
  rw [hnil] at hlines
  obtain rfl : [] = first := (List.cons.inj hlines).1
  exact hfirst rfl

/-! ### The sections -/

section Sections

variable {r : Repository} {refs : Refs} {sha : Sha}

theorem sha_ne_nil (sha : Sha) : sha.val ≠ [] := by
  intro h
  have hsha := sha.property
  rw [h] at hsha
  cases hsha

theorem trimNonEmpty_sha (sha : Sha) : trimNonEmpty sha.val = some sha.val := by
  have hall := sha.property
  simp only [isSha, Bool.and_eq_true, List.all_eq_true, Bool.or_eq_true, decide_eq_true_eq] at hall
  have htrim : trim sha.val = sha.val := by
    refine trim_of_forall_not fun c hc => ?_
    rcases hall.2 c hc with hdigit | ⟨hlo, hhi⟩
    · exact not_isWhiteSpace_of_isDigit hdigit
    · have hlo' : 97 ≤ c.toNat := hlo
      have hhi' : c.toNat ≤ 102 := hhi
      exact not_isWhiteSpace_of_printable (by omega) (by omega)
  rw [trimNonEmpty, htrim, if_neg (sha_ne_nil sha)]

/-- The script captures a commit, or nothing. -/
theorem capture_printLine :
    capture (Repository.printLine (found.map Subtype.val)).stdout = (found.map Subtype.val).getD [] := by
  rcases found with _ | sha
  · rfl
  · exact capture_newline (onLine_sha sha).1

theorem ok_bind_printLine :
    (Repository.printLine (found.map Subtype.val)).ok.bind trimNonEmpty = found.map Subtype.val := by
  rw [(Repository.isLine_printLine_sha found).ok_bind, capture_printLine]
  rcases found with _ | sha
  · rfl
  · exact trimNonEmpty_sha sha

theorem nonBlankOr_sha : nonBlankOr ((found.map Subtype.val).getD []) none = found.map Subtype.val := by
  rcases found with _ | sha
  · rfl
  · rw [nonBlankOr, Option.map_some, Option.getD_some, trimNonEmpty_sha]
    rfl

theorem onLine_getD_sha : OnLine ((found.map Subtype.val).getD []) := by
  rcases found with _ | sha
  · exact ⟨by simp, by simp⟩
  · exact onLine_sha sha

theorem IsLine.nonBlankOr_capture {out : GitOutput} (h : IsLine out) :
    nonBlankOr (capture out.stdout) none = out.ok.bind trimNonEmpty := by
  rw [h.ok_bind, nonBlankOr, Option.or_none]

/-- An upstream that is not looked for. -/
theorem parseFrom_reportUpstream_nil (hout : out.upSha = none)
    (git : GitQuery → GitOutput) (headSha upstreamRef baseRef post : Text) :
    parseFrom (out, false) (reportUpstream git headSha upstreamRef baseRef [] ++ post) =
      parseFrom (out, false) post := by
  have hset : out.set [] .upSha = out := by
    simp only [BatchGitStateOutput.set, hout, show nonBlankOr [] none = none from rfl]
    rw [← hout]
  rw [reportUpstream, if_neg fun h => h.1 rfl, List.append_nil,
    parseFrom_printKey out .upSha ⟨by simp, by simp⟩, hset]

/-- The section about the upstream gives what `compute_upstream_state` gives. -/
theorem parseFrom_reportUpstream (hhead : r.head = some sha)
    (hout : out.upSha = none ∧ out.upAhead = 0 ∧ out.upBehind = 0 ∧ out.upMergeBase = none ∧
      out.upBehindBase = 0) (upstreamRef baseRef post : Text) :
    let upstream := computeUpstreamState (r.query refs) upstreamRef baseRef (some sha.val) false
    parseFrom (out, false) (reportUpstream (r.query refs) sha.val upstreamRef baseRef
        (capture (r.query refs (.revParseVerify upstreamRef)).stdout) ++ post) =
      parseFrom ({ out with
        upSha := upstream.sha
        upAhead := upstream.ahead
        upBehind := upstream.behind
        upMergeBase := upstream.mergeBaseSha
        upBehindBase := upstream.behindBase }, false) post := by
  obtain ⟨headSha, branch, statusLines, missing, error, _, _, _, _, _, baseSha, baseBehind⟩ := out
  obtain ⟨rfl, rfl, rfl, rfl, rfl⟩ := hout
  have hresolve : resolveRef (r.query refs) upstreamRef =
      (r.resolve refs upstreamRef).map Subtype.val := ok_bind_printLine _
  have hcapture : capture (r.query refs (.revParseVerify upstreamRef)).stdout =
      ((r.resolve refs upstreamRef).map Subtype.val).getD [] := capture_printLine _
  rw [hcapture]
  -- without an upstream the section is empty
  rcases hup : r.resolve refs upstreamRef with _ | up
  · rw [hup] at hresolve
    simp only [computeUpstreamState, hresolve, Option.map_none, Option.getD_none, Bool.false_eq_true,
      if_false, true_or, if_true]
    exact parseFrom_reportUpstream_nil rfl _ _ _ _ _
  · rw [hup] at hresolve
    have hcounts := (r.isLine_leftRight refs headRev upstreamRef).splitWhitespace_orEcho
    have hmb := (r.isLine_mergeBase refs headRev upstreamRef).nonBlankOr_capture
    have hcount := (r.isLine_revCount refs upstreamRef baseRef).parseCount_orEcho
    have hvalue : OnLine (if upstreamRef ≠ baseRef then
        capture ((r.query refs (.revListCount upstreamRef baseRef)).orEcho ['0']) else ['0']) := by
      split
      · exact (r.isLine_revCount refs upstreamRef baseRef).onLine_orEcho ⟨by decide, by decide⟩
      · exact ⟨by decide, by decide⟩
    rw [reportUpstream, Option.map_some, Option.getD_some, if_pos ⟨sha_ne_nil up, sha_ne_nil sha⟩]
    simp only [List.append_assoc]
    rw [Repository.query_leftRight_head refs hhead, Repository.query_mergeBase_head refs hhead,
      parseFrom_printKey _ _ (onLine_sha up),
      parseFrom_printKey _ _ ((r.isLine_leftRight refs headRev upstreamRef).onLine_orEcho
        ⟨by decide, by decide⟩),
      parseFrom_printKey _ _ (r.isLine_mergeBase refs headRev upstreamRef).onLine_capture,
      parseFrom_printKey _ _ hvalue]
    -- the script does not ask for the count against the base itself
    have hbehind : parseCount (some (trim (if upstreamRef ≠ baseRef then
        capture ((r.query refs (.revListCount upstreamRef baseRef)).orEcho ['0']) else ['0']))) =
        if upstreamRef = baseRef then 0 else revCount (r.query refs) upstreamRef baseRef := by
      by_cases href : upstreamRef = baseRef
      · rw [if_neg (not_not.mpr href), if_pos href]
        decide
      · rw [if_pos href, if_neg href, hcount]
        rfl
    have hsha : nonBlankOr up.val none = some up.val := nonBlankOr_sha (some up)
    simp only [computeUpstreamState, hresolve, Option.map_some, Bool.false_eq_true, if_false,
      reduceCtorEq, or_self, BatchGitStateOutput.set, hbehind, hmb, hsha, mergeBase]
    rw [← hcounts]

/-- The section about the base gives what `compute_base_state` gives. -/
theorem parse_reportBase (hhead : r.head = some sha)
    (hout : out.baseSha = none ∧ out.baseBehind = 0) (baseRef : Text) :
    let base := computeBaseState (r.query refs) baseRef (some sha.val)
    (parseFrom (out, false) (reportBase (r.query refs) sha.val baseRef)).1 =
      { out with baseSha := base.sha, baseBehind := base.commitsSinceFork } := by
  obtain ⟨headSha, branch, statusLines, missing, error, upSha, upAhead, upBehind, upMergeBase,
    upBehindBase, _, _⟩ := out
  obtain ⟨rfl, rfl⟩ := hout
  have hresolve : resolveRef (r.query refs) baseRef = (r.resolve refs baseRef).map Subtype.val :=
    ok_bind_printLine _
  have hcapture : capture (r.query refs (.revParseVerify baseRef)).stdout =
      ((r.resolve refs baseRef).map Subtype.val).getD [] := capture_printLine _
  have hmergeBase : mergeBase (r.query refs) headRev baseRef =
      (r.forkPoint refs headRev baseRef).map Subtype.val := ok_bind_printLine _
  have hmb : capture (r.query refs (.mergeBase headRev baseRef)).stdout =
      ((r.forkPoint refs headRev baseRef).map Subtype.val).getD [] := capture_printLine _
  have hend : ∀ acc : BatchGitStateOutput × Bool, parseFrom acc [] = acc := fun _ => rfl
  simp only [reportBase, Repository.query_mergeBase_head refs hhead, hcapture, hmb]
  rw [parseFrom_printKey _ _ (onLine_getD_sha _)]
  rcases hbase : r.resolve refs baseRef with _ | base
  · rw [hbase] at hresolve
    simp only [computeBaseState, hresolve, Option.map_none, Option.getD_none, ne_eq, not_true_eq_false,
      false_and, if_false, Option.isSome_none, Bool.false_eq_true, hend]
    rfl
  · rw [hbase] at hresolve
    rw [Option.map_some, Option.getD_some, if_pos ⟨sha_ne_nil base, sha_ne_nil sha⟩,
      parseFrom_printKey _ _ (onLine_getD_sha _)]
    have hsha : nonBlankOr base.val none = some base.val := nonBlankOr_sha (some base)
    simp only [computeBaseState, hresolve, hmergeBase, Option.map_some, Option.isSome_some, and_self,
      if_true, BatchGitStateOutput.set, hsha]
    rcases r.forkPoint refs headRev baseRef with _ | mb
    · rfl
    · have hcount := (r.isLine_revCount refs mb.val baseRef).parseCount_orEcho
      have hvalue := (r.isLine_revCount refs mb.val baseRef).onLine_orEcho
        (show OnLine ['0'] from ⟨by decide, by decide⟩)
      rw [Option.map_some, Option.getD_some, if_pos (sha_ne_nil mb), ← List.append_nil (printKey _ _),
        parseFrom_printKey _ _ hvalue, hend]
      simp only [BatchGitStateOutput.set, hcount]
      rfl

/-! ### The whole report -/

theorem query_status_stdout (scope : WorktreeStatusScope) :
    (r.query refs (.status scope)).stdout =
      unlines (((r.status scope).getD []).map StatusLine.text) := by
  rw [Repository.query]
  rcases r.status scope with _ | statusLines <;> rfl

/-- The status that the parser has collected counts as the status itself. -/
theorem parseWorktree_joinLines (scope : WorktreeStatusScope) :
    parseWorktreeFromStatus (joinLines (((r.status scope).getD []).map StatusLine.text)) =
      computeWorktreeState (r.query refs) scope := by
  rw [parseWorktreeFromStatus, lines_joinLines, computeWorktreeState, Repository.query]
  rcases r.status scope with _ | statusLines
  · rfl
  · show worktreeOfLines (statusLines.map StatusLine.text) =
      worktreeOfLines (lines (unlines (statusLines.map StatusLine.text)))
    rw [lines_unlines_status]

/-- The sections after the error. `known` says whether the upstream is known to be missing. -/
theorem parse_reportRefs (hhead : r.head = some sha) {upRefArg upstreamRef : Text}
    {upstreamMissing known : Bool}
    (hknown : known = true ↔ ¬ (upRefArg ≠ [] ∧ upstreamMissing = false))
    (harg : known = false → upRefArg = upstreamRef) (baseRef : Text)
    (hup : out.upSha = none ∧ out.upAhead = 0 ∧ out.upBehind = 0 ∧ out.upMergeBase = none ∧
      out.upBehindBase = 0) (hbase : out.baseSha = none ∧ out.baseBehind = 0) :
    let upstream := computeUpstreamState (r.query refs) upstreamRef baseRef (some sha.val) known
    let base := computeBaseState (r.query refs) baseRef (some sha.val)
    (parseFrom (out, false) (reportUpstream (r.query refs) sha.val upRefArg baseRef
        (if upRefArg ≠ [] ∧ upstreamMissing = false then
          capture (r.query refs (.revParseVerify upRefArg)).stdout else []) ++
        reportBase (r.query refs) sha.val baseRef)).1 =
      { out with
        upSha := upstream.sha
        upAhead := upstream.ahead
        upBehind := upstream.behind
        upMergeBase := upstream.mergeBaseSha
        upBehindBase := upstream.behindBase
        baseSha := base.sha
        baseBehind := base.commitsSinceFork } := by
  cases known with
  | false =>
    obtain rfl := harg rfl
    have hcond : upRefArg ≠ [] ∧ upstreamMissing = false := by
      by_contra hnot
      cases hknown.mpr hnot
    rw [if_pos hcond, parseFrom_reportUpstream hhead hup]
    obtain ⟨hsha, hbehind⟩ := hbase
    rw [hsha, hbehind]
    exact parse_reportBase hhead ⟨rfl, rfl⟩ baseRef
  | true =>
    rw [if_neg (hknown.mp rfl), parseFrom_reportUpstream_nil hup.1, parse_reportBase hhead hbase]
    obtain ⟨headSha, branch, statusLines, missing, error, _, _, _, _, _, baseSha, baseBehind⟩ := out
    obtain ⟨rfl, rfl, rfl, rfl, rfl⟩ := hup
    rfl

/-- The parser reads the report back. -/
theorem parse_batchReport (hhead : r.head = some sha) {upRefArg upstreamRef : Text}
    {upstreamMissing known : Bool}
    (hknown : known = true ↔ ¬ (upRefArg ≠ [] ∧ upstreamMissing = false))
    (harg : known = false → upRefArg = upstreamRef) (baseRef : Text) {fetchErr : Text}
    (herr : fetchErr = [] ∨ ∃ ferr, ReadableError ferr ∧ fetchErr = capture ferr)
    (scope : WorktreeStatusScope) :
    let upstream := computeUpstreamState (r.query refs) upstreamRef baseRef (some sha.val) known
    let base := computeBaseState (r.query refs) baseRef (some sha.val)
    ∃ err, (err = none ↔ fetchErr = []) ∧
      parseBatchGitStateOutput
          (batchReport (r.query refs) upRefArg baseRef fetchErr upstreamMissing scope) =
        { headSha := some sha.val
          branch := currentBranch (r.query refs)
          statusLines := joinLines (((r.status scope).getD []).map StatusLine.text)
          upstreamMissing
          fetchError := err
          upSha := upstream.sha
          upAhead := upstream.ahead
          upBehind := upstream.behind
          upMergeBase := upstream.mergeBaseSha
          upBehindBase := upstream.behindBase
          baseSha := base.sha
          baseBehind := base.commitsSinceFork } := by
  intro upstream base
  have hcapture : capture (r.query refs .revParseHead).stdout = sha.val := by
    rw [Repository.query_head refs hhead]
    exact capture_newline (onLine_sha sha).1
  have hheadSha : nonBlankOr sha.val none = some sha.val := nonBlankOr_sha (some sha)
  have hbranch : nonBlankOr (capture (r.query refs .branchShowCurrent).stdout) none =
      currentBranch (r.query refs) := (r.isLine_branch refs).nonBlankOr_capture
  have hmissing : ∀ (out : BatchGitStateOutput) (post : Text), out.upstreamMissing = false →
      parseFrom (out, false)
        ((if upstreamMissing then printKey .upstreamMissing ['t', 'r', 'u', 'e'] else []) ++ post) =
      parseFrom ({ out with upstreamMissing }, false) post := by
    intro out post hout
    cases upstreamMissing with
    | false =>
      rw [if_neg (by decide), List.nil_append, ← hout]
    | true =>
      rw [if_pos rfl, parseFrom_printKey _ _ ⟨by decide, by decide⟩]
      rfl
  have hparse : ∀ text, parseBatchGitStateOutput text = (parseFrom ({}, false) text).1 := fun _ => rfl
  simp only [hparse, batchReport, hcapture, query_status_stdout]
  rw [parseFrom_printKey _ _ (onLine_sha sha), parseFrom_printKey _ _ (r.isLine_branch refs).onLine_capture,
    parseFrom_statusBlock rfl, hmissing _ _ rfl]
  simp only [BatchGitStateOutput.set, hheadSha, hbranch]
  -- without an error of the fetch the block about it is missing
  rcases herr with rfl | ⟨ferr, hread, rfl⟩
  · refine ⟨none, iff_of_true rfl rfl, ?_⟩
    rw [if_neg fun h => h rfl, List.nil_append]
    exact parse_reportRefs hhead hknown harg baseRef ⟨rfl, rfl, rfl, rfl, rfl⟩ ⟨rfl, rfl⟩
  · rw [if_pos hread.capture_ne_nil]
    obtain ⟨err, hfound⟩ := hread.parseFrom _ _
    refine ⟨some err, iff_of_false (by simp) hread.capture_ne_nil, ?_⟩
    rw [hfound]
    exact parse_reportRefs hhead hknown harg baseRef ⟨rfl, rfl, rfl, rfl, rfl⟩ ⟨rfl, rfl⟩

end Sections

/-! ## The fetches -/

section Agreement

variable (runFetch : FetchCommand → StateM Refs (Except Text Text)) (refs : Refs)
  (branchName baseBranch : Text)

/-- The errors of the fetches are read alike. A missing ref is found by the same errors, which it is not
when there is only one ref, and the error that is reported is readable. -/
def ErrorsAgree : Prop :=
  if refspecFor branchName = refspecFor baseBranch then
    ∀ ferr after, (runFetch ⟨true, [refspecFor baseBranch]⟩).run refs = (.error ferr, after) →
      isMissingRemoteRef ferr = false ∧ ReadableError ferr
  else
    ∀ ferr after,
      (runFetch ⟨true, [refspecFor baseBranch, refspecFor branchName]⟩).run refs = (.error ferr, after) →
        grepMissingRemoteRef ferr = isMissingRemoteRef ferr ∧
          if isMissingRemoteRef ferr then
            ∀ ferr' after', (runFetch ⟨true, [refspecFor baseBranch]⟩).run after = (.error ferr', after') →
              ReadableError ferr'
          else ReadableError ferr

variable {runFetch refs branchName baseBranch}

/-- The argument of the script for the branch. -/
def branchArgOf (branchName baseBranch : Text) : Text :=
  if refspecFor branchName ≠ refspecFor baseBranch then refspecFor branchName else []

theorem refspecFor_ne_nil (branch : Text) : refspecFor branch ≠ [] := by
  intro h
  have hstart := (List.append_eq_nil_iff.mp (List.append_eq_nil_iff.mp (List.append_eq_nil_iff.mp h).1).1).1
  revert hstart
  decide

theorem batchFetch_single (baseRefspec : Text) :
    (batchFetch runFetch baseRefspec []).run refs =
      match (runFetch ⟨true, [baseRefspec]⟩).run refs with
      | (.ok _, after) => (([], false), after)
      | (.error ferr, after) => ((capture ferr, false), after) := by
  show (runFetch ⟨true, [baseRefspec]⟩ >>= _).run refs = _
  rw [StateT.run_bind]
  rcases (runFetch ⟨true, [baseRefspec]⟩).run refs with ⟨ferr | output, after⟩ <;> rfl

theorem batchFetch_pair (baseRefspec : Text) {branchRefspec : Text} (hne : branchRefspec ≠ []) :
    (batchFetch runFetch baseRefspec branchRefspec).run refs =
      match (runFetch ⟨true, [baseRefspec, branchRefspec]⟩).run refs with
      | (.ok _, after) => (([], false), after)
      | (.error ferr, after) =>
        if grepMissingRemoteRef ferr then
          match (runFetch ⟨true, [baseRefspec]⟩).run after with
          | (.ok _, after) => (([], true), after)
          | (.error ferr, after) => ((capture ferr, false), after)
        else ((capture ferr, false), after) := by
  rw [batchFetch, if_pos hne, StateT.run_bind]
  rcases (runFetch ⟨true, [baseRefspec, branchRefspec]⟩).run refs with ⟨ferr | output, after⟩
  · show StateT.run (m := Id) (if grepMissingRemoteRef ferr = true then
        runFetch ⟨true, [baseRefspec]⟩ >>= _ else _) after =
      if grepMissingRemoteRef ferr = true then _ else _
    split
    · rw [StateT.run_bind]
      rcases (runFetch ⟨true, [baseRefspec]⟩).run after with ⟨ferr' | output, after'⟩ <;> rfl
    · rfl
  · rfl

/-- Both phases fetch the same, and end alike. -/
theorem batchFetch_agrees (h : ErrorsAgree runFetch refs branchName baseBranch) :
    (∃ missing after,
      (fetchRefspecs runFetch false (refspecFor baseBranch)
        (neededRefspecs branchName baseBranch)).run refs = (.ok missing, after) ∧
      (batchFetch runFetch (refspecFor baseBranch) (branchArgOf branchName baseBranch)).run refs =
        (([], missing), after)) ∨
    ∃ error ferr after,
      (fetchRefspecs runFetch false (refspecFor baseBranch)
        (neededRefspecs branchName baseBranch)).run refs = (.error error, after) ∧
      (batchFetch runFetch (refspecFor baseBranch) (branchArgOf branchName baseBranch)).run refs =
        ((capture ferr, false), after) ∧ ReadableError ferr := by
  by_cases heq : refspecFor branchName = refspecFor baseBranch
  · rw [ErrorsAgree, if_pos heq] at h
    rw [neededRefspecs, if_neg (not_not.mpr heq), branchArgOf, if_neg (not_not.mpr heq),
      fetchRefspecs_single, batchFetch_single, Bool.not_false]
    rcases hrun : (runFetch ⟨true, [refspecFor baseBranch]⟩).run refs with ⟨ferr | output, after⟩
    · obtain ⟨hmissing, hread⟩ := h ferr after hrun
      refine .inr ⟨trim ferr, ferr, after, ?_, rfl, hread⟩
      simp only [hmissing, Bool.false_eq_true, if_false]
    · exact .inl ⟨false, after, rfl, rfl⟩
  · rw [ErrorsAgree, if_neg heq] at h
    rw [neededRefspecs, if_pos heq, branchArgOf, if_pos heq, fetchRefspecs_pair,
      batchFetch_pair _ (refspecFor_ne_nil branchName), Bool.not_false]
    rcases hrun : (runFetch ⟨true, [refspecFor baseBranch, refspecFor branchName]⟩).run refs with
      ⟨ferr | output, after⟩
    · obtain ⟨hgrep, hread⟩ := h ferr after hrun
      simp only [hgrep]
      by_cases hmissing : isMissingRemoteRef ferr = true
      · simp only [if_pos hmissing] at hread ⊢
        rcases hbase : (runFetch ⟨true, [refspecFor baseBranch]⟩).run after with ⟨ferr' | output, after'⟩
        · exact .inr ⟨trim ferr', ferr', after', rfl, rfl, hread ferr' after' hbase⟩
        · exact .inl ⟨true, after', rfl, rfl⟩
      · simp only [if_neg hmissing] at hread ⊢
        exact .inr ⟨trim ferr, ferr, after, rfl, rfl, hread⟩
    · exact .inl ⟨false, after, rfl, rfl⟩

/-! ## Both computations -/

theorem originRefForBranch_ne_nil (branch : Text) : originRefForBranch branch ≠ [] := by
  intro h
  have hstart := (List.append_eq_nil_iff.mp h).1
  revert hstart
  decide

/-- The state that `compute_branch_git_state` builds from the answers before and after the fetch. -/
def localState (before after : GitQuery → GitOutput) (branchName baseBranch : Text)
    (scope : WorktreeStatusScope) (refresh : RefreshOutcome) : BranchGitState :=
  let headSha := (before .revParseHead).ok.bind trimNonEmpty
  { headSha
    currentBranch := currentBranch before
    detachedHead := headSha.isSome && (currentBranch before).isNone
    expectedBranchMatches := currentBranch before = some (branchNameWithoutOrigin branchName)
    upstream := computeUpstreamState after (originRefForBranch branchName)
      (originRefForBranch baseBranch) headSha refresh.upstreamKnownMissing
    base := computeBaseState after (originRefForBranch baseBranch) headSha
    worktree := computeWorktreeState before scope
    fetch := refresh.fetch }

theorem cached_none (previous : Option FetchCacheEntry) :
    RefreshOutcome.cached previous none =
      ⟨cachedFetchState previous, (previous.map FetchCacheEntry.upstreamKnownMissing).getD false⟩ := by
  rw [RefreshOutcome.cached, Option.map_none, Option.or_none]
  rfl

section Runs

variable {σ : Type} (caches : FetchCaches) (cacheKey : Text)
  (runFetch : FetchCommand → StateM σ (Except Text Text)) (query : σ → GitQuery → GitOutput)
  (branchName baseBranch : Text) (fetchMode : FetchMode) (scope : WorktreeStatusScope) (now : ℤ) (s : σ)

theorem computeBranchGitState_run :
    (computeBranchGitState caches cacheKey runFetch query branchName baseBranch fetchMode scope now).run s =
      let result := (caches.refreshRefsIfNeeded cacheKey runFetch branchName baseBranch fetchMode now).run s
      ((localState (query s) (query result.2) branchName baseBranch scope result.1.1, result.1.2),
        result.2) := rfl

theorem batchGitStateScript_run (baseRefspec branchRefspec upstreamRef baseRef : Text) (skipFetch : Bool) :
    (batchGitStateScript runFetch query baseRefspec branchRefspec upstreamRef baseRef skipFetch scope).run s =
      let fetched := if skipFetch then (([], false), s)
        else (batchFetch runFetch baseRefspec branchRefspec).run s
      (batchReport (query fetched.2) upstreamRef baseRef fetched.1.1 fetched.1.2 scope, fetched.2) := by
  cases skipFetch <;> rfl

/-- The batched computation without a fetch. -/
theorem batched_run_cached
    (h : branchNeedsFetch (caches.branches.lookup cacheKey) fetchMode now = false) :
    (computeBranchGitStateBatched caches cacheKey runFetch query branchName baseBranch fetchMode scope
        now).run s =
      let previous := caches.branches.lookup cacheKey
      let missing := (previous.map FetchCacheEntry.upstreamKnownMissing).getD false
      (((parseBatchGitStateOutput (batchReport (query s)
            (if missing then [] else originRefForBranch branchName) (originRefForBranch baseBranch) []
            false scope)).state branchName baseBranch (cachedFetchState previous), caches), s) := by
  simp only [computeBranchGitStateBatched, h, StateT.run_bind, batchGitStateScript_run, Bool.not_false,
    Bool.true_and, if_true, Bool.false_eq_true, if_false]
  rfl

/-- The batched computation with a fetch. -/
theorem batched_run_fetched
    (h : branchNeedsFetch (caches.branches.lookup cacheKey) fetchMode now = true) {fetchErr : Text}
    {missing : Bool} {after : σ}
    (hfetch : (batchFetch runFetch (refspecFor baseBranch) (branchArgOf branchName baseBranch)).run s =
      ((fetchErr, missing), after)) :
    (computeBranchGitStateBatched caches cacheKey runFetch query branchName baseBranch fetchMode scope
        now).run s =
      let previous := caches.branches.lookup cacheKey
      let parsed := parseBatchGitStateOutput (batchReport (query after) (originRefForBranch branchName)
        (originRefForBranch baseBranch) fetchErr missing scope)
      (match parsed.fetchError with
        | some err => (parsed.state branchName baseBranch
            ⟨.failed, previous.map FetchCacheEntry.fetchedAt, some err⟩, caches)
        | none => (parsed.state branchName baseBranch ⟨.fresh, some now, none⟩,
            { caches with branches := caches.branches.insert cacheKey ⟨now, parsed.upstreamMissing⟩ }),
        after) := by
  rw [branchArgOf] at hfetch
  simp only [computeBranchGitStateBatched, h, StateT.run_bind, batchGitStateScript_run, Bool.not_true,
    Bool.false_and, if_true, Bool.false_eq_true, if_false, hfetch]
  show StateT.run (m := Id) (match (parseBatchGitStateOutput _).fetchError with
    | some _ => _
    | none => _) after = _
  rcases hparsed : (parseBatchGitStateOutput (batchReport (query after) (originRefForBranch branchName)
    (originRefForBranch baseBranch) fetchErr missing scope)).fetchError with _ | err
  · rfl
  · rfl

end Runs

section State

variable {r : Repository} {sha : Sha} {caches : FetchCaches} {cacheKey : Text} {fetchMode : FetchMode}
  {scope : WorktreeStatusScope} {now : ℤ}

/-- The relation follows from the other fields. -/
theorem computeUpstreamState_relation (git : GitQuery → GitOutput) (upstreamRef baseRef : Text)
    (headSha : Option Text) (known : Bool) :
    let upstream := computeUpstreamState git upstreamRef baseRef headSha known
    upstream.ref = upstreamRef ∧ upstream.exists_ = upstream.sha.isSome ∧
      upstream.relation = if upstream.sha = none ∨ headSha = none then .missing
        else relationOf upstream.ahead upstream.behind := by
  simp only [computeUpstreamState]
  generalize (if known = true then none else resolveRef git upstreamRef) = found
  by_cases hcond : found = none ∨ headSha = none
  · simp only [if_pos hcond]
    exact ⟨trivial, trivial, trivial⟩
  · simp only [if_neg hcond]
    exact ⟨trivial, trivial, trivial⟩

/-- The state from a report, when it is parsed as `parse_batchReport` says. -/
theorem state_of_report {refs before : Refs} {known upstreamMissing : Bool} {err : Option Text}
    (hhead : r.head = some sha) (fetch : FetchGitState) :
    let upstream := computeUpstreamState (r.query refs) (originRefForBranch branchName)
      (originRefForBranch baseBranch) (some sha.val) known
    let base := computeBaseState (r.query refs) (originRefForBranch baseBranch) (some sha.val)
    BatchGitStateOutput.state
        { headSha := some sha.val
          branch := currentBranch (r.query refs)
          statusLines := joinLines (((r.status scope).getD []).map StatusLine.text)
          upstreamMissing
          fetchError := err
          upSha := upstream.sha
          upAhead := upstream.ahead
          upBehind := upstream.behind
          upMergeBase := upstream.mergeBaseSha
          upBehindBase := upstream.behindBase
          baseSha := base.sha
          baseBehind := base.commitsSinceFork } branchName baseBranch fetch =
      localState (r.query before) (r.query refs) branchName baseBranch scope ⟨fetch, known⟩ := by
  intro upstream base
  have hsha : (r.query before .revParseHead).ok.bind trimNonEmpty = some sha.val := by
    rw [Repository.query_head before hhead]
    show trimNonEmpty (sha.val ++ ['\n']) = _
    rw [trimNonEmpty, trim_concat _ (by decide)]
    exact trimNonEmpty_sha sha
  obtain ⟨href, hexists, hrelation⟩ := computeUpstreamState_relation (r.query refs)
    (originRefForBranch branchName) (originRefForBranch baseBranch) (some sha.val) known
  have hupstream : upstream =
      { ref := originRefForBranch branchName
        exists_ := upstream.sha.isSome
        sha := upstream.sha
        relation := if upstream.sha = none ∨ some sha.val = none then .missing
          else relationOf upstream.ahead upstream.behind
        ahead := upstream.ahead
        behind := upstream.behind
        mergeBaseSha := upstream.mergeBaseSha
        behindBase := upstream.behindBase } := by
    rw [← hrelation, ← hexists]
    show upstream = { upstream with ref := originRefForBranch branchName }
    rw [← href]
  rw [BatchGitStateOutput.state, @parseWorktree_joinLines r before scope, localState]
  simp only [hsha]
  show _ = BranchGitState.mk _ _ _ _ upstream _ _ _
  rw [hupstream]
  rfl

/-- The report of the script gives the state of the local computation. -/
theorem report_state {refs : Refs} (before : Refs) (hhead : r.head = some sha) {upRefArg : Text}
    {upstreamMissing known : Bool}
    (hknown : known = true ↔ ¬ (upRefArg ≠ [] ∧ upstreamMissing = false))
    (harg : known = false → upRefArg = originRefForBranch branchName) {fetchErr : Text}
    (herr : fetchErr = [] ∨ ∃ ferr, ReadableError ferr ∧ fetchErr = capture ferr) :
    let parsed := parseBatchGitStateOutput (batchReport (r.query refs) upRefArg
      (originRefForBranch baseBranch) fetchErr upstreamMissing scope)
    (parsed.fetchError = none ↔ fetchErr = []) ∧ parsed.upstreamMissing = upstreamMissing ∧
      ∀ fetch, parsed.state branchName baseBranch fetch =
        localState (r.query before) (r.query refs) branchName baseBranch scope ⟨fetch, known⟩ := by
  obtain ⟨err, herrNil, hparse⟩ :=
    parse_batchReport hhead hknown harg (originRefForBranch baseBranch) herr scope
  intro parsed
  have hparsed : parsed = _ := hparse
  rw [hparsed]
  exact ⟨herrNil, rfl, fun fetch => state_of_report hhead fetch⟩

end State

/-- The state without the text of the error. -/
def BranchGitState.withoutErrorText (state : BranchGitState) : BranchGitState :=
  { state with fetch := { state.fetch with error := state.fetch.error.map fun _ => [] } }

theorem BranchGitState.withoutErrorText_headSha (state : BranchGitState) :
    state.withoutErrorText.headSha = state.headSha := rfl

/-- The two results of a computation agree: the states up to the text of the error, and what is cached
for the branch. -/
def Agree (cacheKey : Text) (single batched : BranchGitState × FetchCaches) : Prop :=
  single.1.withoutErrorText = batched.1.withoutErrorText ∧
    single.2.branches.lookup cacheKey = batched.2.branches.lookup cacheKey

section Main

/-- The fetch of the local computation fails. -/
def FetchFails (runFetch : FetchCommand → StateM Refs (Except Text Text)) (refs : Refs)
    (branchName baseBranch : Text) : Prop :=
  ∃ error after, (fetchRefspecs runFetch false (refspecFor baseBranch)
    (neededRefspecs branchName baseBranch)).run refs = (.error error, after)

/-- The local and the batched computation have the same results, and a fetch that fails is reported by
both. -/
def SameResults (cacheKey : Text) (r : Repository) (refs : Refs)
    (runFetch : FetchCommand → StateM Refs (Except Text Text)) (caches : FetchCaches)
    (branchName baseBranch : Text) (fetchMode : FetchMode) (scope : WorktreeStatusScope) (now : ℤ) :
    Prop :=
  let single := (computeBranchGitState caches cacheKey runFetch r.query branchName baseBranch
    fetchMode scope now).run refs
  let batched := (computeBranchGitStateBatched caches cacheKey runFetch r.query branchName baseBranch
    fetchMode scope now).run refs
  Agree cacheKey single.1 batched.1 ∧
    (branchNeedsFetch (caches.branches.lookup cacheKey) fetchMode now = true →
      FetchFails runFetch refs branchName baseBranch →
        single.1.1.fetch.status = .failed ∧ batched.1.1.fetch.status = .failed)

variable {cacheKey : Text} {r : Repository} {runFetch : FetchCommand → StateM Refs (Except Text Text)}
  {caches : FetchCaches} {fetchMode : FetchMode} {now : ℤ}

theorem sameResults_of_head (hkey : repoKeyFromLocalCacheKey cacheKey = none)
    (scope : WorktreeStatusScope) (hhead : r.head ≠ none)
    (herrors : branchNeedsFetch (caches.branches.lookup cacheKey) fetchMode now = true →
      ErrorsAgree runFetch refs branchName baseBranch) :
    SameResults cacheKey r refs runFetch caches branchName baseBranch fetchMode scope now := by
  rw [SameResults]
  obtain ⟨sha, hsha⟩ := Option.ne_none_iff_exists'.mp hhead
  have hrefresh := caches.refreshRefsIfNeeded_remote runFetch branchName baseBranch fetchMode now hkey refs
  have hne := originRefForBranch_ne_nil branchName
  rcases hshould : branchNeedsFetch (caches.branches.lookup cacheKey) fetchMode now with _ | _
  · -- both use what is cached, and the script is not asked for an upstream that is known to be missing
    simp only [hshould, Bool.false_eq_true, if_false] at hrefresh
    rw [computeBranchGitState_run, batched_run_cached _ _ _ _ _ _ _ _ _ _ hshould, hrefresh]
    refine ⟨?_, by simp⟩
    let missing := ((caches.branches.lookup cacheKey).map FetchCacheEntry.upstreamKnownMissing).getD false
    have hknown : missing = true ↔
        ¬ ((if missing then [] else originRefForBranch branchName) ≠ [] ∧ false = false) := by
      cases missing <;> simp [hne]
    have harg : missing = false →
        (if missing then [] else originRefForBranch branchName) = originRefForBranch branchName := by
      intro hmissing
      rw [hmissing, if_neg (by decide)]
    obtain ⟨-, -, hstate⟩ := @report_state branchName baseBranch r sha scope refs refs hsha _ _ _ hknown
      harg _ (.inl rfl)
    rw [cached_none]
    exact ⟨congrArg BranchGitState.withoutErrorText (hstate _).symm, rfl⟩
  · simp only [hshould, if_true] at hrefresh
    rw [computeBranchGitState_run]
    rcases batchFetch_agrees (herrors hshould) with ⟨missing, after, hsingle, hbatched⟩ |
      ⟨error, ferr, after, hsingle, hbatched, hread⟩
    · -- the fetch succeeds, perhaps without the branch
      rw [hsingle] at hrefresh
      rw [batched_run_fetched _ _ _ _ _ _ _ _ _ _ hshould hbatched, hrefresh]
      have hknown : missing = true ↔ ¬ (originRefForBranch branchName ≠ [] ∧ missing = false) := by
        cases missing <;> simp [hne]
      obtain ⟨herr, hmissing, hstate⟩ := @report_state branchName baseBranch r sha scope after refs hsha _ _
        _ hknown (fun _ => rfl) _ (.inl rfl)
      have hnofail : ¬ FetchFails runFetch refs branchName baseBranch := by
        rintro ⟨error, after', hrun⟩
        rw [hsingle] at hrun
        cases hrun
      refine ⟨?_, fun _ hfails => absurd hfails hnofail⟩
      simp only [herr.mpr rfl, hmissing, hstate]
      exact ⟨rfl, rfl⟩
    -- the fetch fails: both report an error and the refs as they were
    · rw [hsingle] at hrefresh
      rw [batched_run_fetched _ _ _ _ _ _ _ _ _ _ hshould hbatched, hrefresh]
      have hknown : false = true ↔ ¬ (originRefForBranch branchName ≠ [] ∧ false = false) := by
        simp [hne]
      obtain ⟨herr, hmissing, hstate⟩ := @report_state branchName baseBranch r sha scope after refs hsha _ _
        _ hknown (fun _ => rfl) _ (.inr ⟨ferr, hread, rfl⟩)
      obtain ⟨err, hsome⟩ := Option.ne_none_iff_exists'.mp fun hnil => hread.capture_ne_nil (herr.mp hnil)
      simp only [hsome, hstate]
      exact ⟨⟨rfl, rfl⟩, fun _ _ => ⟨rfl, rfl⟩⟩

/-- A line never takes the commit of `HEAD` away. -/
theorem parseBatchLine_headSha {acc : BatchGitStateOutput × Bool} (h : acc.1.headSha.isSome = true)
    (line : Text) : (parseBatchLine acc line).1.headSha.isSome = true := by
  obtain ⟨out, inStatus⟩ := acc
  simp only [parseBatchLine]
  split
  · exact h
  · split
    · exact h
    · split
      · exact h
      · split
        · rename_i key val hkey
          cases key with
          | head => simp [BatchGitStateOutput.set, nonBlankOr, show out.headSha.isSome = true from h]
          | _ => exact h
        · exact h

/-- Without a commit the parser still reads one. -/
theorem headSha_of_unborn {refs : Refs} (hhead : r.head = none)
    (upstreamRef baseRef fetchErr : Text) (upstreamMissing : Bool) (scope : WorktreeStatusScope) :
    (parseBatchGitStateOutput (batchReport (r.query refs) upstreamRef baseRef fetchErr upstreamMissing
      scope)).headSha.isSome = true := by
  have hfold : ∀ (text : List Text) (acc : BatchGitStateOutput × Bool), acc.1.headSha.isSome = true →
      (text.foldl parseBatchLine acc).1.headSha.isSome = true := by
    intro text
    induction text with
    | nil => exact fun _ hacc => hacc
    | cons line rest ih => exact fun acc hacc => ih _ (parseBatchLine_headSha hacc line)
  have hcapture : capture (r.query refs .revParseHead).stdout = headRev := by
    rw [Repository.query, hhead]
    rfl
  show (parseFrom ({}, false) _).1.headSha.isSome = true
  simp only [batchReport, hcapture]
  rw [parseFrom_printKey _ .head ⟨by decide, by decide⟩]
  exact hfold _ _ rfl

theorem batched_headSha_of_unborn (scope : WorktreeStatusScope) (hhead : r.head = none) :
    ((computeBranchGitStateBatched caches cacheKey runFetch r.query branchName baseBranch fetchMode scope
      now).run refs).1.1.headSha.isSome = true := by
  rcases hshould : branchNeedsFetch (caches.branches.lookup cacheKey) fetchMode now with _ | _
  · rw [batched_run_cached _ _ _ _ _ _ _ _ _ _ hshould]
    exact headSha_of_unborn hhead _ _ _ _ _
  · rcases hfetch : (batchFetch runFetch (refspecFor baseBranch) (branchArgOf branchName baseBranch)).run
      refs with ⟨⟨fetchErr, missing⟩, after⟩
    rw [batched_run_fetched _ _ _ _ _ _ _ _ _ _ hshould hfetch]
    simp only
    split
    · exact headSha_of_unborn hhead _ _ _ _ _
    · exact headSha_of_unborn hhead _ _ _ _ _

theorem not_sameResults_of_unborn (scope : WorktreeStatusScope) (hhead : r.head = none) :
    ¬ SameResults cacheKey r refs runFetch caches branchName baseBranch fetchMode scope now := by
  rintro ⟨⟨hstate, -⟩, -⟩
  have hbatched := @batched_headSha_of_unborn refs branchName baseBranch cacheKey r runFetch caches
    fetchMode now scope hhead
  have hsingle : ((computeBranchGitState caches cacheKey runFetch r.query branchName baseBranch fetchMode
      scope now).run refs).1.1.headSha = none := by
    rw [computeBranchGitState_run]
    show (r.query refs .revParseHead).ok.bind trimNonEmpty = none
    rw [Repository.query, hhead]
    rfl
  have hheads := congrArg BranchGitState.headSha hstate
  rw [BranchGitState.withoutErrorText_headSha, BranchGitState.withoutErrorText_headSha, hsingle] at hheads
  rw [← hheads] at hbatched
  cases hbatched

/-- The local and the batched computation have the same results if `HEAD` has a commit and the errors of
the fetches are read alike. Without a commit they never have. -/
theorem batched_agrees (cacheKey : Text) (hkey : repoKeyFromLocalCacheKey cacheKey = none)
    (r : Repository) (refs : Refs) (runFetch : FetchCommand → StateM Refs (Except Text Text))
    (caches : FetchCaches) (branchName baseBranch : Text) (fetchMode : FetchMode)
    (scope : WorktreeStatusScope) (now : ℤ) :
    (r.head ≠ none →
      (branchNeedsFetch (caches.branches.lookup cacheKey) fetchMode now = true →
        ErrorsAgree runFetch refs branchName baseBranch) →
      SameResults cacheKey r refs runFetch caches branchName baseBranch fetchMode scope now) ∧
    (SameResults cacheKey r refs runFetch caches branchName baseBranch fetchMode scope now →
      r.head ≠ none) := by
  refine ⟨fun hhead herrors => sameResults_of_head hkey scope hhead herrors, fun hsame hhead => ?_⟩
  exact not_sameResults_of_unborn scope hhead hsame

/-- A branch `b` with one commit over the base `m` and a modified file. -/
def oneCommitRepo : Repository where
  head := some ⟨List.replicate 40 'a', by decide⟩
  branch := some ⟨['b'], by decide⟩
  status := fun _ => some [⟨.unmodified, .modified, ['f'], by decide⟩]
  leftRight := fun _ _ => some (1, 0)
  mergeBase := fun _ right => some right
  revCount := fun _ _ => some 0

/-- A remote without the branch. -/
def fetchWithoutBranch (command : FetchCommand) : StateM Refs (Except Text Text) :=
  if command.refspecs.length = 2 then
    return .error "fatal: couldn't find remote ref refs/heads/b\n".toList
  else do
    set (σ := Refs) fun reference =>
      if reference = "origin/m".toList then some ⟨List.replicate 40 'b', by decide⟩ else none
    return .ok []

/-- The results for a branch that was not pushed yet. -/
theorem batched_agrees_unpushed :
    SameResults ['r'] oneCommitRepo (fun _ => none) fetchWithoutBranch {} ['b'] ['m'] .force .full 0 := by
  refine (batched_agrees ['r'] (by decide) oneCommitRepo (fun _ => none) fetchWithoutBranch {} ['b'] ['m']
    .force .full 0).1 (by decide) fun _ => ?_
  rw [ErrorsAgree, if_neg (by decide)]
  intro ferr after hrun
  obtain ⟨hferr, hafter⟩ := Prod.mk.inj hrun
  obtain rfl := Except.error.inj hferr
  refine ⟨by decide, ?_⟩
  rw [if_pos (by decide)]
  intro ferr' after' hretry
  cases hretry

/-- A repository without a commit. -/
def unbornRepo : Repository where
  head := none
  branch := some ⟨['b'], by decide⟩
  status := fun _ => some []
  leftRight := fun _ _ => none
  mergeBase := fun _ _ => none
  revCount := fun _ _ => none

/-- The script takes the text `HEAD` for a commit. -/
theorem unborn_head_differs :
    ((computeBranchGitState {} ['r'] fetchWithoutBranch unbornRepo.query ['b'] ['m'] .never .full 0).run
      fun _ => none).1.1.headSha = none ∧
    ((computeBranchGitStateBatched {} ['r'] fetchWithoutBranch unbornRepo.query ['b'] ['m'] .never .full
      0).run fun _ => none).1.1.headSha = some headRev ∧
    ¬ SameResults ['r'] unbornRepo (fun _ => none) fetchWithoutBranch {} ['b'] ['m'] .never .full 0 := by
  have hsingle : ((computeBranchGitState {} ['r'] fetchWithoutBranch unbornRepo.query ['b'] ['m'] .never
      .full 0).run fun _ => none).1.1.headSha = none := by
    decide
  have hbatched : ((computeBranchGitStateBatched {} ['r'] fetchWithoutBranch unbornRepo.query ['b'] ['m']
      .never .full 0).run fun _ => none).1.1.headSha = some headRev := by
    decide
  refine ⟨hsingle, hbatched, fun hsame => ?_⟩
  have hheads := congrArg BranchGitState.headSha hsame.1.1
  rw [BranchGitState.withoutErrorText_headSha, BranchGitState.withoutErrorText_headSha, hsingle,
    hbatched] at hheads
  cases hheads

end Main

end Agreement

end Builderbot.Git
