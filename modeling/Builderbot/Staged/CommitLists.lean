import Builderbot.Git.Types

/-!
# Commit lists of the timeline

The timeline asks git for one line per commit, `--format=%H|%h|%s|%an|%ae|%ct`, and splits the line at the first five bars.
`get_commits_since_base` of `apps/staged/src-tauri/src/git/worktree.rs` does so for a local worktree, `parse_commit_lines` and
`parse_parent_commit_lines` of `timeline.rs` for a remote workspace and for the parent branch. The subject, the author's
name and the email are free text, which may contain bars itself.

`decodesExactly_iff` says for which commits every copy returns what git printed.
-/

namespace Builderbot.Staged.CommitLists

open Builderbot.Lib.Text Builderbot.Git

/-! ## The parsers -/

structure ParentBranchCommit where
  sha : Text
  shortSha : Text
  subject : Text
  author : Text
  authorEmail : Text
  timestamp : ℤ
deriving DecidableEq

structure CommitInfo extends ParentBranchCommit where
  order : ℤ
deriving DecidableEq

structure CommitTimelineItem extends CommitInfo where
  id : Option Text
  sessionId : Option Text
  sessionStatus : Option Text
  completionReason : Option Text
  isOwnCommit : Bool
deriving DecidableEq

/-- The body of the loop, the same in all three copies. -/
def parseCommitLine (line : Text) : Option ParentBranchCommit :=
  match splitn 6 '|' line with
  | sha :: shortSha :: subject :: author :: authorEmail :: timestamp :: _ =>
    some { sha, shortSha, subject, author, authorEmail, timestamp := (parseI64 timestamp).getD 0 }
  | _ => none

/-- `parse_parent_commit_lines`. -/
def parseParentCommitLines (commitLines : List Text) : List ParentBranchCommit := commitLines.filterMap parseCommitLine

/-- The position counted from the end of the list: git prints the newest commit first. -/
def orderAt (len i : ℕ) : ℤ := (len : ℤ) - 1 - i

def commitFormat : Text := "--format=%H|%h|%s|%an|%ae|%ct".toList

section Local

variable {ε : Type*} (git : List Text → Except ε Text)

/-- `get_commits_since_base`; `git` is `cli::run_smart` in the worktree. -/
def getCommitsSinceBase (base : Text) : Except ε (List CommitInfo) := do
  let mbOutput ← git ["merge-base".toList, base, "HEAD".toList]
  let mergeBase := trim mbOutput
  let output ← git ["log".toList, commitFormat, mergeBase ++ "..HEAD".toList]
  let commits := ((lines output).filter (· ≠ [])).filterMap parseCommitLine
  return commits.mapIdx fun i commit => { commit with order := orderAt commits.length i }

end Local

/-- A row of the table of commits, as far as the timeline reads it. -/
structure StoredCommit where
  id : Text
  sessionId : Option Text

/-- A session, as far as the timeline reads it. -/
structure StoredSession where
  status : Text
  completionReason : Option Text

structure ResolvedSession where
  sessionId : Option Text := none
  status : Option Text := none
  completionReason : Option Text := none

/-- The queries of the store; either may fail. -/
structure Store where
  getCommitBySha : Text → Text → Except Text (Option StoredCommit)
  getSession : Text → Except Text (Option StoredSession)

section Timeline

variable (store : Store) (branchId : Text)

/-- `resolve_session_status`. -/
def Store.resolveSessionStatus : Option Text → ResolvedSession
  | some sid =>
    let session := (store.getSession sid).toOption.join
    { sessionId := some sid
      status := session.map StoredSession.status
      completionReason := session.bind StoredSession.completionReason }
  | none => {}

/-- The timeline item of a commit, linked to the session that the store has for its sha. -/
def timelineItem (commit : CommitInfo) : CommitTimelineItem :=
  let ourCommit := (store.getCommitBySha branchId commit.sha).toOption.join
  let resolved := store.resolveSessionStatus (ourCommit.bind StoredCommit.sessionId)
  { commit with
    id := ourCommit.map StoredCommit.id
    sessionId := resolved.sessionId
    sessionStatus := resolved.status
    completionReason := resolved.completionReason
    isOwnCommit := false }

/-- `parse_commit_lines`. The items are made with the order 0, which a second loop replaces. -/
def parseCommitLines (commitLines : List Text) : List CommitTimelineItem :=
  let commits := (commitLines.filterMap parseCommitLine).map fun commit =>
    timelineItem store branchId { commit with order := 0 }
  commits.mapIdx fun i commit => { commit with order := orderAt commits.length i }

/-- `fetch_remote_commits`; `git` is `run_workspace_git`, and an error is the text it is displayed as. -/
def fetchRemoteCommits (git : List Text → Except Text Text) (baseRef : Text) : Except Text (List CommitTimelineItem) := do
  let range :=
    match git ["merge-base".toList, baseRef, "HEAD".toList] with
    | .ok mbOutput => trim mbOutput ++ "..HEAD".toList
    | .error _ => baseRef ++ "..HEAD".toList
  match git ["log".toList, commitFormat, range] with
  | .error e => .error ("Failed to load commits from workspace: ".toList ++ e)
  | .ok output => return parseCommitLines store branchId ((lines output).filter (· ≠ []))

/-- `map_local_commits`. -/
def mapLocalCommits (gitCommits : List CommitInfo) : List CommitTimelineItem :=
  gitCommits.map (timelineItem store branchId)

end Timeline

/-! ## Commits as git prints them -/

def isHexDigit (c : Char) : Bool := c.isDigit || ('a' ≤ c && c ≤ 'f')

/-- An object name, in full or abbreviated. -/
structure Sha where
  text : Text
  ne_nil : text ≠ []
  hex : ∀ c ∈ text, isHexDigit c = true

/-- Text on one line. -/
structure OneLine where
  text : Text
  no_newline : '\n' ∉ text

structure Commit where
  sha : Sha
  shortSha : Sha
  subject : OneLine
  author : OneLine
  authorEmail : OneLine
  timestamp : ℕ

namespace Commit

/-- `%H|%h|%s|%an|%ae|%ct`. -/
def line (c : Commit) : Text :=
  c.sha.text ++ '|' :: (c.shortSha.text ++ '|' :: (c.subject.text ++ '|' :: (c.author.text ++ '|' ::
    (c.authorEmail.text ++ '|' :: decimal c.timestamp))))

/-- The fields of the commit itself. -/
def fields (c : Commit) : ParentBranchCommit where
  sha := c.sha.text
  shortSha := c.shortSha.text
  subject := c.subject.text
  author := c.author.text
  authorEmail := c.authorEmail.text
  timestamp := c.timestamp

/-- No bar in the free text, and a timestamp that a signed machine word holds. -/
structure Plain (c : Commit) : Prop where
  subject : '|' ∉ c.subject.text
  author : '|' ∉ c.author.text
  authorEmail : '|' ∉ c.authorEmail.text
  timestamp : c.timestamp < 2 ^ 63

end Commit

/-- A branch: the commits since the fork point, newest first. -/
structure Branch where
  base : Text
  forkPoint : Sha
  commits : List Commit

namespace Branch

variable (b : Branch)

def logLines : List Text := b.commits.map Commit.line

/-- The two commands that list the commits of the branch. -/
def git (args : List Text) : Except Text Text :=
  if args = ["merge-base".toList, b.base, "HEAD".toList] then .ok (b.forkPoint.text ++ ['\n'])
  else if args = ["log".toList, commitFormat, b.forkPoint.text ++ "..HEAD".toList] then .ok (unlines b.logLines)
  else .error "fatal: ambiguous argument".toList

/-- The commits of the branch with their positions, the oldest at 0. -/
def infos : List CommitInfo :=
  b.commits.mapIdx fun i c => { c.fields with order := orderAt b.commits.length i }

/-- All copies return the commits of the branch, one item for each, with its own fields. -/
structure DecodesExactly (store : Store) (branchId : Text) : Prop where
  since_base : getCommitsSinceBase b.git b.base = .ok b.infos
  remote : fetchRemoteCommits store branchId b.git b.base = .ok (b.infos.map (timelineItem store branchId))
  parent : parseParentCommitLines b.logLines = b.commits.map Commit.fields
  /-- The local and the remote timeline show the same. -/
  timelines : (getCommitsSinceBase b.git b.base).map (mapLocalCommits store branchId) =
    fetchRemoteCommits store branchId b.git b.base

end Branch

/-! ## Reading one line -/

theorem parseCommitLine_eq_some_iff {line : Text} {commit : ParentBranchCommit} : parseCommitLine line = some commit ↔
    ∃ timestamp, splitn 6 '|' line = [commit.sha, commit.shortSha, commit.subject, commit.author, commit.authorEmail, timestamp] ∧
      (parseI64 timestamp).getD 0 = commit.timestamp := by
  have hlength := length_splitn 5 '|' line
  constructor
  · intro h
    rw [parseCommitLine] at h
    split at h
    · rename_i sha shortSha subject author authorEmail timestamp rest hsplit
      rw [hsplit] at hlength
      have hrest : rest = [] := by
        apply List.length_eq_zero_iff.mp
        simp only [List.length_cons] at hlength
        omega
      rw [Option.some_inj] at h
      rw [← h]
      exact ⟨timestamp, by rw [hsplit, hrest], rfl⟩
    · exact absurd h (by simp)
  · rintro ⟨timestamp, hsplit, htime⟩
    rw [parseCommitLine, hsplit]
    simp only [htime]

theorem Sha.notMem (sha : Sha) {c : Char} (hc : isHexDigit c = false) : c ∉ sha.text := by
  intro hmem
  exact absurd ((sha.hex c hmem).symm.trans hc) (by decide)

namespace Commit

variable (c : Commit)

theorem parseCommitLine_line_iff : parseCommitLine c.line = some c.fields ↔ c.Plain := by
  rw [parseCommitLine_eq_some_iff]
  have hsha : '|' ∉ c.sha.text := c.sha.notMem (by decide)
  have hshort : '|' ∉ c.shortSha.text := c.shortSha.notMem (by decide)
  constructor
  · rintro ⟨timestamp, hsplit, htime⟩
    -- what was split off has no bar
    have hparts : ∀ part ∈ (splitn 6 '|' c.line).dropLast, '|' ∉ part := fun part => notMem_of_mem_dropLast_splitn
    rw [hsplit] at hparts
    simp only [fields, List.dropLast, List.forall_mem_cons] at hparts
    obtain ⟨-, -, hsubject, hauthor, hemail, -⟩ := hparts
    rw [line, splitn_append hsha, splitn_append hshort, splitn_append hsubject, splitn_append hauthor,
      splitn_append hemail] at hsplit
    simp only [splitn, fields, List.cons.injEq, true_and, and_true] at hsplit
    rw [← hsplit, parseI64_decimal] at htime
    refine ⟨hsubject, hauthor, hemail, ?_⟩
    by_contra hbig
    rw [if_neg hbig] at htime
    simp only [Option.getD_none, fields] at htime
    omega
  · intro h
    refine ⟨decimal c.timestamp, ?_, ?_⟩
    · rw [line, splitn_append hsha, splitn_append hshort, splitn_append h.subject, splitn_append h.author,
        splitn_append h.authorEmail]
      rfl
    · rw [parseI64_decimal, if_pos h.timestamp]
      rfl

theorem ne_nil : c.line ≠ [] := by
  rw [line]
  simp

theorem notMem_newline : '\n' ∉ c.line := by
  simp only [line, List.mem_append, List.mem_cons, not_or]
  refine ⟨c.sha.notMem (by decide), by decide, c.shortSha.notMem (by decide), by decide, c.subject.no_newline, by decide,
    c.author.no_newline, by decide, c.authorEmail.no_newline, by decide, notMem_decimal (by decide)⟩

/-- The line ends in a digit. -/
theorem stripCr_line : stripCr c.line = c.line := by
  have hdigits : stripCr (decimal c.timestamp) = decimal c.timestamp :=
    stripCr_of_notMem (notMem_decimal (by decide))
  have hne : decimal c.timestamp ≠ [] := Nat.toDigits_ne_nil
  have happ : c.line = (c.sha.text ++ '|' :: (c.shortSha.text ++ '|' :: (c.subject.text ++ '|' :: (c.author.text ++ '|' ::
      (c.authorEmail.text ++ ['|']))))) ++ decimal c.timestamp := by
    simp [line]
  rw [happ, stripCr_append hne, hdigits]

end Commit

/-! ## Whole lists -/

theorem filterMap_parseCommitLine_iff (commits : List Commit) :
    (commits.map Commit.line).filterMap parseCommitLine = commits.map Commit.fields ↔ ∀ c ∈ commits, c.Plain := by
  rw [List.filterMap_map, List.filterMap_eq_map_iff_forall_eq_some]
  exact forall₂_congr fun c _ => c.parseCommitLine_line_iff

/-- The order is assigned to the commits in both copies, and the session is looked up by the sha alone. -/
theorem parseCommitLines_eq (store : Store) (branchId : Text) (commitLines : List Text) :
    parseCommitLines store branchId commitLines =
      mapLocalCommits store branchId ((commitLines.filterMap parseCommitLine).mapIdx fun i commit =>
        { commit with order := orderAt (commitLines.filterMap parseCommitLine).length i }) := by
  rw [parseCommitLines, mapLocalCommits]
  simp only [List.length_map]
  rw [List.mapIdx_eq_iff]
  intro i
  rw [List.getElem?_map, List.getElem?_map, List.getElem?_mapIdx]
  cases (commitLines.filterMap parseCommitLine)[i]? with
  | none => rfl
  | some commit => rfl

/-- When git answers both questions, the remote timeline shows what the local one shows. -/
theorem fetchRemoteCommits_of_local (store : Store) (branchId : Text) {git : List Text → Except Text Text} {base : Text}
    {commits : List CommitInfo} (h : getCommitsSinceBase git base = .ok commits) :
    fetchRemoteCommits store branchId git base = .ok (mapLocalCommits store branchId commits) := by
  rw [getCommitsSinceBase] at h
  rw [fetchRemoteCommits]
  cases hbase : git ["merge-base".toList, base, "HEAD".toList] with
  | error e =>
    rw [hbase] at h
    cases h
  | ok mbOutput =>
    rw [hbase] at h
    simp only [bind, Except.bind] at h ⊢
    cases hlog : git ["log".toList, commitFormat, trim mbOutput ++ "..HEAD".toList] with
    | error e =>
      rw [hlog] at h
      cases h
    | ok output =>
      rw [hlog] at h
      cases h
      simp only [parseCommitLines_eq]
      rfl

namespace Branch

variable (b : Branch)

theorem lines_log : (lines (unlines b.logLines)).filter (· ≠ []) = b.logLines := by
  have hnewline : ∀ l ∈ b.logLines, '\n' ∉ l := by
    intro l hl
    obtain ⟨c, -, rfl⟩ := List.mem_map.mp hl
    exact c.notMem_newline
  have hstrip : b.logLines.map stripCr = b.logLines := by
    rw [logLines, List.map_map]
    exact List.map_congr_left fun c _ => c.stripCr_line
  rw [lines_unlines hnewline, hstrip, List.filter_eq_self]
  intro l hl
  obtain ⟨c, -, rfl⟩ := List.mem_map.mp hl
  exact decide_eq_true c.ne_nil

theorem git_mergeBase : b.git ["merge-base".toList, b.base, "HEAD".toList] = .ok (b.forkPoint.text ++ ['\n']) := if_pos rfl

theorem git_log : b.git ["log".toList, commitFormat, b.forkPoint.text ++ "..HEAD".toList] = .ok (unlines b.logLines) := by
  rw [git, if_neg, if_pos rfl]
  simp

theorem trim_forkPoint : trim (b.forkPoint.text ++ ['\n']) = b.forkPoint.text := by
  rw [trim_concat _ (by decide), trim_of_forall_not]
  intro c hc
  have hhex := b.forkPoint.hex c hc
  rw [isHexDigit, Bool.or_eq_true] at hhex
  rcases hhex with hdigit | hletter
  · exact not_isWhiteSpace_of_isDigit hdigit
  · rw [Bool.and_eq_true, decide_eq_true_eq, decide_eq_true_eq] at hletter
    have hlo : 97 ≤ c.toNat := hletter.1
    have hhi : c.toNat ≤ 102 := hletter.2
    exact not_isWhiteSpace_of_printable (by omega) (by omega)

/-- The local list: what the lines say, with the positions. -/
theorem getCommitsSinceBase_eq : getCommitsSinceBase b.git b.base =
    .ok ((b.logLines.filterMap parseCommitLine).mapIdx fun i commit =>
      { commit with order := orderAt (b.logLines.filterMap parseCommitLine).length i }) := by
  rw [getCommitsSinceBase, git_mergeBase]
  simp only [bind, Except.bind, trim_forkPoint, git_log, lines_log]
  rfl

/-- The local and the remote timeline show the same, whatever the commits are. -/
theorem timelines_agree (store : Store) (branchId : Text) :
    (getCommitsSinceBase b.git b.base).map (mapLocalCommits store branchId) = fetchRemoteCommits store branchId b.git b.base := by
  rw [fetchRemoteCommits_of_local store branchId b.getCommitsSinceBase_eq, getCommitsSinceBase_eq]
  rfl

/-- Every copy decodes a list of commits exactly when no free text contains a bar. -/
theorem decodesExactly_iff (store : Store) (branchId : Text) :
    b.DecodesExactly store branchId ↔ ∀ c ∈ b.commits, c.Plain := by
  rw [← filterMap_parseCommitLine_iff]
  constructor
  · exact fun h => h.parent
  · intro h
    have hinfos : ((b.commits.map Commit.fields).mapIdx fun i commit =>
        ({ commit with order := orderAt (b.commits.map Commit.fields).length i } : CommitInfo)) = b.infos := by
      rw [infos, List.length_map]
      apply List.ext_getElem?
      intro i
      rw [List.getElem?_mapIdx, List.getElem?_mapIdx, List.getElem?_map, Option.map_map]
      rfl
    have hlocal : getCommitsSinceBase b.git b.base = .ok b.infos := by
      rw [getCommitsSinceBase_eq, logLines, h, hinfos]
    exact ⟨hlocal, fetchRemoteCommits_of_local store branchId hlocal, h, b.timelines_agree store branchId⟩

end Branch

/-- A store without commits. -/
def emptyStore : Store := ⟨fun _ _ => .ok none, fun _ => .ok none⟩

/-- A branch with one commit, whose subject contains a bar. -/
def barBranch : Branch where
  base := "origin/main".toList
  forkPoint := ⟨"1f".toList, by decide, List.all_eq_true.mp (by decide)⟩
  commits := [⟨⟨"2e".toList, by decide, List.all_eq_true.mp (by decide)⟩,
    ⟨"2e".toList, by decide, List.all_eq_true.mp (by decide)⟩, ⟨"a|b".toList, by decide⟩,
    ⟨"Ann".toList, by decide⟩, ⟨"ann@x".toList, by decide⟩, 1⟩]

/-- The second half of the subject is taken for the author, and the rest of the line is no timestamp. -/
theorem bar_shifts_fields : barBranch.logLines = ["2e|2e|a|b|Ann|ann@x|1".toList] ∧
    parseParentCommitLines barBranch.logLines =
      [⟨"2e".toList, "2e".toList, "a".toList, "b".toList, "Ann".toList, 0⟩] ∧
    ¬ barBranch.DecodesExactly emptyStore "b1".toList := by
  refine ⟨by decide, by decide, ?_⟩
  intro h
  have hne : parseParentCommitLines barBranch.logLines ≠ barBranch.commits.map Commit.fields := by
    decide
  exact hne h.parent

end Builderbot.Staged.CommitLists
