import Builderbot.Staged.WorkspaceClone

/-!
# The directories of clones

`resolve_branch_clone_dir` names the directory of a clone in the workspace, and `setup_remote_repo_clone` makes the clone.
The directory of a repo is its `nameWords` with dashes between them. The clones of a workspace are where they are looked
for exactly if no repo has a subpath and the repos have different words (`clonesWhereLooked_iff`).
-/

namespace Builderbot.Staged.WorkspaceClone

open Builderbot.Lib.Text Builderbot.Git Program

/-- Only the directory of the repo. -/
def resolveBranchCloneDir (branch : Branch) : WorkspaceM (Option Text) := do
  match branch.projectRepoId with
  | none => return none
  | some repoId =>
    match ← ofExcept id (← ask (.getProjectRepo repoId) : Except Text (Option ProjectRepo)) with
    | none => return none
    | some repo => return some ("home:".toList ++ repoNameFromGithubRepo repo.githubRepo)

/-! ## Names -/

/-- A character that a word of a name is made of. -/
def IsWordChar (c : Char) : Prop := c.isAlphanum ∨ c = '_' ∨ c = '.'

instance (c : Char) : Decidable (IsWordChar c) := inferInstanceAs (Decidable (_ ∨ _))

/-- The words of a text. -/
def words (s : Text) : List Text := (s.splitOnP fun c => ¬ IsWordChar c).filter (· ≠ [])

/-- The words of the last part of a slug. -/
def nameWords (githubRepo : Text) : List Text :=
  if words ((githubRepo.splitOn '/').getLast?.getD githubRepo) = [] then ["repo".toList]
  else words ((githubRepo.splitOn '/').getLast?.getD githubRepo)

/-- Each piece is free of separators. -/
theorem forall_mem_splitOnP {α : Type*} {p : α → Bool} {s piece : List α} (h : piece ∈ s.splitOnP p) :
    ∀ c ∈ piece, p c = false := by
  induction s generalizing piece with
  | nil =>
    rw [List.splitOnP_nil, List.mem_singleton] at h
    rw [h]
    exact List.forall_mem_nil _
  | cons c s ih =>
    rw [List.splitOnP_cons_eq_if_modifyHead] at h
    split_ifs at h with hc
    · rcases List.mem_cons.mp h with rfl | hmem
      · exact List.forall_mem_nil _
      · exact ih hmem
    · obtain ⟨first, rest, heq⟩ := List.exists_cons_of_ne_nil (List.splitOnP_ne_nil p s)
      rw [heq, List.modifyHead_cons, List.mem_cons] at h
      rcases h with rfl | hmem
      · refine List.forall_mem_cons.mpr ⟨Bool.eq_false_iff.mpr hc, ih ?_⟩
        rw [heq]
        exact List.mem_cons_self
      · refine ih ?_
        rw [heq]
        exact List.mem_cons_of_mem _ hmem

/-- Separators may be replaced by others. -/
theorem splitOnP_map {α β : Type*} {p : α → Bool} {q : β → Bool} {f : α → β} (h : ∀ a, q (f a) = p a) (s : List α) :
    (s.map f).splitOnP q = (s.splitOnP p).map (List.map f) := by
  induction s with
  | nil => rfl
  | cons c s ih =>
    rw [List.map_cons, List.splitOnP_cons_eq_if_modifyHead, List.splitOnP_cons_eq_if_modifyHead, h, ih]
    split_ifs
    · rfl
    · obtain ⟨first, rest, heq⟩ := List.exists_cons_of_ne_nil (List.splitOnP_ne_nil p s)
      rw [heq]
      rfl

/-- Words without separators are read back. -/
theorem intercalate_injOn {α : Type*} [DecidableEq α] {sep : α} {ws ws' : List (List α)} (hws : ∀ w ∈ ws, sep ∉ w)
    (hws' : ∀ w ∈ ws', sep ∉ w) (hne : ws ≠ []) (hne' : ws' ≠ []) (h : [sep].intercalate ws = [sep].intercalate ws') :
    ws = ws' := by
  rw [← List.splitOn_intercalate sep hws hne, h, List.splitOn_intercalate sep hws' hne']

/-- The character that stands for another one in the name of a directory. -/
def sanitizeChar (c : Char) : Char := if c.isAlphanum ∨ c = '-' ∨ c = '_' ∨ c = '.' then c else '-'

theorem sanitizeChar_eq_dash (c : Char) : (sanitizeChar c == '-') = decide (¬ IsWordChar c) := by
  rw [Bool.eq_iff_iff, beq_iff_eq, decide_eq_true_iff, sanitizeChar]
  by_cases hdash : c = '-'
  · subst hdash
    decide
  · by_cases hword : IsWordChar c
    · have hkeep : c.isAlphanum ∨ c = '-' ∨ c = '_' ∨ c = '.' := hword.elim .inl fun h => .inr (.inr h)
      rw [if_pos hkeep]
      exact ⟨fun h => absurd h hdash, fun h => absurd hword h⟩
    · have hdrop : ¬ (c.isAlphanum ∨ c = '-' ∨ c = '_' ∨ c = '.') := fun h =>
        hword (h.elim .inl fun h => h.elim (fun h => absurd h hdash) .inr)
      rw [if_neg hdrop]
      exact iff_of_true rfl hword

theorem sanitizeChar_of_word {c : Char} (h : IsWordChar c) : sanitizeChar c = c :=
  if_pos (h.elim .inl fun h => .inr (.inr h))

/-- The pieces between dashes are those between characters that are not part of a word. -/
theorem splitOn_sanitized (s : Text) : (s.map sanitizeChar).splitOn '-' = s.splitOnP fun c => ¬ IsWordChar c := by
  rw [List.splitOn_eq_splitOnP, splitOnP_map sanitizeChar_eq_dash]
  refine (List.map_congr_left fun piece hpiece => ?_).trans (List.map_id _)
  refine (List.map_congr_left fun c hc => ?_).trans (List.map_id piece)
  have hword := forall_mem_splitOnP hpiece c hc
  rw [decide_eq_false_iff_not, not_not] at hword
  exact sanitizeChar_of_word hword

variable (githubRepo : Text)

theorem nameWords_ne_nil : nameWords githubRepo ≠ [] := by
  rw [nameWords]
  split_ifs with h
  · exact List.cons_ne_nil _ _
  · exact h

theorem forall_mem_words {s word : Text} (h : word ∈ words s) : word ≠ [] ∧ '-' ∉ word := by
  rw [words, List.mem_filter, decide_eq_true_iff] at h
  refine ⟨h.2, fun hdash => ?_⟩
  exact absurd (forall_mem_splitOnP h.1 '-' hdash) (by decide)

theorem forall_mem_nameWords {githubRepo word : Text} (h : word ∈ nameWords githubRepo) : '-' ∉ word := by
  rw [nameWords] at h
  split_ifs at h
  · obtain rfl := List.mem_singleton.mp h
    decide
  · exact (forall_mem_words h).2

theorem intercalate_words_isEmpty (s : Text) : (['-'].intercalate (words s)).isEmpty = true ↔ words s = [] := by
  constructor
  · intro h
    cases hwords : words s with
    | nil => rfl
    | cons word rest =>
      have hword := (forall_mem_words (s := s) (hwords ▸ List.mem_cons_self)).1
      rw [hwords, List.isEmpty_iff] at h
      have hlength : word.length ≤ (['-'].intercalate (word :: rest)).length := by
        cases rest with
        | nil => rw [List.intercalate_singleton]
        | cons next rest =>
          rw [List.intercalate_cons_cons, List.append_assoc, List.length_append]
          exact Nat.le_add_right _ _
      rw [h] at hlength
      exact absurd (List.length_eq_zero_iff.mp (Nat.le_zero.mp hlength)) hword
  · intro h
    rw [h]
    rfl

/-- The name of the directory. -/
theorem repoNameFromGithubRepo_eq :
    repoNameFromGithubRepo githubRepo = ['-'].intercalate (nameWords githubRepo) := by
  have hname : repoNameFromGithubRepo githubRepo =
      if (['-'].intercalate (words ((githubRepo.splitOn '/').getLast?.getD githubRepo))).isEmpty then "repo".toList
      else ['-'].intercalate (words ((githubRepo.splitOn '/').getLast?.getD githubRepo)) := by
    rw [words, ← splitOn_sanitized]
    rfl
  rw [hname, nameWords]
  by_cases h : words ((githubRepo.splitOn '/').getLast?.getD githubRepo) = []
  · rw [if_pos ((intercalate_words_isEmpty _).mpr h), if_pos h, List.intercalate_singleton]
  · rw [if_neg (mt (intercalate_words_isEmpty _).mp h), if_neg h]

theorem repoName_eq_iff (githubRepo' : Text) :
    repoNameFromGithubRepo githubRepo = repoNameFromGithubRepo githubRepo' ↔ nameWords githubRepo = nameWords githubRepo' := by
  rw [repoNameFromGithubRepo_eq, repoNameFromGithubRepo_eq]
  refine ⟨fun h => ?_, congrArg _⟩
  exact intercalate_injOn (fun _ => forall_mem_nameWords) (fun _ => forall_mem_nameWords) (nameWords_ne_nil _)
    (nameWords_ne_nil _) h

/-! ## Directories -/

variable {repo : ProjectRepo} {branchId : Text} {branch : Branch} {pre : Call → Prop} {wsName : Text} {α : Type}

section

variable {κ : Type} (w : World κ)

/-- What the store may answer: its rows, or an error. Any answer may come from the workspace. -/
def Answers : (c : Call) → Reply c → Prop
  | .getBranch id, r => ∀ row, r = .ok row → row = w.branches.lookup id
  | .getProject id, r => ∀ row, r = .ok row → row = w.projects.lookup id
  | .getProjectRepo id, r => ∀ row, r = .ok row → row = w.projectRepos.lookup id
  | _, _ => True

/-- A clone is looked for or made at the path only. -/
def Call.At (path : Text) : Call → Prop
  | .testDir p => p = path ++ "/.git".toList
  | .gitClone _ p => p = path
  | _ => True

/-- A branch with a workspace and a repo that can be set up. -/
structure InWorkspace (wsName branchId : Text) (branch : Branch) (repo : ProjectRepo) : Prop where
  branch_row : w.branches.lookup branchId = some branch
  project_row : (w.projects.lookup branch.projectId).isSome = true
  workspace : branch.workspaceName = some wsName
  repo_row : ∃ repoId, branch.projectRepoId = some repoId ∧ w.projectRepos.lookup repoId = some repo
  valid : ∀ subpath ∈ repo.subpath, ∃ validated, validateWorkspaceSubpath subpath = .ok validated

/-- The directory that `resolve_branch_clone_dir` names. -/
def NamesDirectory (branch : Branch) (path : Text) : Prop :=
  Sound (fun _ => True) (Answers w) (fun dir => dir.map resolveWorkspaceRepoPath = some path) (resolveBranchCloneDir branch)

/-- The path at which the repo of the branch is worked on. -/
def WorksAt (branch : Branch) (path : Text) : Prop :=
  Sound (fun _ => True) (Answers w) (fun dir => dir.map resolveWorkspaceRepoPath = some path)
    (resolveBranchWorkspaceSubpath branch)

/-- The clones of the workspaces are made at the directories that are named, each repo has its own, and a subpath is a
directory in it. -/
structure ClonesWhereLooked : Prop where
  agrees : ∀ {wsName branchId branch repo path}, InWorkspace w wsName branchId branch repo → NamesDirectory w branch path →
    Sound (Call.At path) (Answers w) (fun _ => True) (setupRemoteRepoClone branchId)
  inside : ∀ {wsName branchId branch repo path}, InWorkspace w wsName branchId branch repo → NamesDirectory w branch path →
    ∀ subpath ∈ repo.subpath, ∃ validated, validateWorkspaceSubpath subpath = .ok validated ∧
      WorksAt w branch (path ++ '/' :: validated)
  distinct : ∀ {wsName branchId branchId' branch branch' repo repo' path path'},
    InWorkspace w wsName branchId branch repo → InWorkspace w wsName branchId' branch' repo' →
    repo.githubRepo ≠ repo'.githubRepo → NamesDirectory w branch path → NamesDirectory w branch' path' → path ≠ path'

variable {w}

theorem sound_ofExcept_bind {post : (c : Call) → Reply c → Prop} {ε' β : Type} {error : ε' → Text}
    {r : Except ε' α} {f : α → WorkspaceM β} {Q : β → Prop} :
    Sound pre post Q (ofExcept error r >>= f) ↔ ∀ a, r = .ok a → Sound pre post Q (f a) :=
  sound_bind.trans sound_ofExcept

theorem sound_some_bind {post : (c : Call) → Reply c → Prop} {e : Text} {β : Type} {a : α}
    {f : α → WorkspaceM β} {Q : β → Prop} : Sound pre post Q (ofOption e (some a) >>= f) ↔ Sound pre post Q (f a) := Iff.rfl

/-- A row that is read is the row. -/
theorem sound_row {c : Call} {ρ : Type} {answer : Reply c → Except Text ρ} {row : ρ}
    {f : ρ → WorkspaceM α} {Q : α → Prop} (hpre : pre c) (hrow : ∃ r, Answers w c r ∧ answer r = .ok row)
    (honly : ∀ r, Answers w c r → ∀ found, answer r = .ok found → found = row) :
    Sound pre (Answers w) Q (ask c >>= fun r => ofExcept id (answer r) >>= f) ↔ Sound pre (Answers w) Q (f row) := by
  refine sound_perform_bind.trans ?_
  constructor
  · rintro ⟨-, h⟩
    obtain ⟨r, hanswer, hok⟩ := hrow
    exact sound_ofExcept_bind.mp (h r hanswer) row hok
  · intro h
    refine ⟨hpre, fun r hanswer => sound_ofExcept_bind.mpr fun found hfound => ?_⟩
    rw [honly r hanswer found hfound]
    exact h

section Rows

variable {pre : Call → Prop} {α : Type} {Q : α → Prop}

theorem sound_getBranch {f : Option Branch → WorkspaceM α} (hpre : pre (.getBranch branchId)) :
    Sound pre (Answers w) Q (ask (.getBranch branchId) >>= fun r => ofExcept id r >>= f) ↔
      Sound pre (Answers w) Q (f (w.branches.lookup branchId)) :=
  sound_row (c := .getBranch branchId) hpre
    ⟨.ok (w.branches.lookup branchId), fun _ hrow => (Except.ok.inj hrow).symm, rfl⟩ fun _ hanswer => hanswer

theorem sound_getProject {projectId : Text} {f : Option Project → WorkspaceM α} (hpre : pre (.getProject projectId)) :
    Sound pre (Answers w) Q (ask (.getProject projectId) >>= fun r => ofExcept id r >>= f) ↔
      Sound pre (Answers w) Q (f (w.projects.lookup projectId)) :=
  sound_row (c := .getProject projectId) hpre
    ⟨.ok (w.projects.lookup projectId), fun _ hrow => (Except.ok.inj hrow).symm, rfl⟩ fun _ hanswer => hanswer

theorem sound_getProjectRepo {repoId : Text} {f : Option ProjectRepo → WorkspaceM α} (hpre : pre (.getProjectRepo repoId)) :
    Sound pre (Answers w) Q (ask (.getProjectRepo repoId) >>= fun r => ofExcept id r >>= f) ↔
      Sound pre (Answers w) Q (f (w.projectRepos.lookup repoId)) :=
  sound_row (c := .getProjectRepo repoId) hpre
    ⟨.ok (w.projectRepos.lookup repoId), fun _ hrow => (Except.ok.inj hrow).symm, rfl⟩ fun _ hanswer => hanswer

end Rows

/-- The directory of a repo. -/
def repoDirectory (repo : ProjectRepo) : Text := "/home/bloxer/".toList ++ repoNameFromGithubRepo repo.githubRepo

theorem resolve_home (rest : Text) : resolveWorkspaceRepoPath ("home:".toList ++ rest) = "/home/bloxer/".toList ++ rest := by
  have hprefix : "home:".toList <+: "home:".toList ++ rest := List.prefix_append _ _
  have hlength : "home:".toList.length = 5 := by decide
  have hrest : ("home:".toList ++ rest).drop 5 = rest := List.drop_left' hlength
  rw [resolveWorkspaceRepoPath, if_pos hprefix, hrest]

theorem namesDirectory_iff {path : Text}
    (h : InWorkspace w wsName branchId branch repo) : NamesDirectory w branch path ↔ repoDirectory repo = path := by
  obtain ⟨repoId, hid, hrepo⟩ := h.repo_row
  rw [NamesDirectory, resolveBranchCloneDir, hid]
  refine (sound_getProjectRepo trivial).trans ?_
  rw [hrepo]
  refine sound_pure.trans ?_
  have hdirectory : (some ("home:".toList ++ repoNameFromGithubRepo repo.githubRepo)).map resolveWorkspaceRepoPath =
      some (repoDirectory repo) := congrArg some (resolve_home _)
  rw [hdirectory, Option.some_inj]

/-- The path below the home directory at which a repo is worked on. -/
def workPath (repo : ProjectRepo) : Except Text Text :=
  match repo.subpath with
  | some subpath => (validateWorkspaceSubpath subpath).map fun v => repoNameFromGithubRepo repo.githubRepo ++ '/' :: v
  | none => .ok (repoNameFromGithubRepo repo.githubRepo)

theorem sound_resolveBranchWorkspaceSubpath (hpre : ∀ repoId, pre (.getProjectRepo repoId))
    (h : InWorkspace w wsName branchId branch repo)
    {rest : Text} (hrest : workPath repo = .ok rest) {Q : Option Text → Prop} :
    Sound pre (Answers w) Q (resolveBranchWorkspaceSubpath branch) ↔ Q (some ("home:".toList ++ rest)) := by
  obtain ⟨repoId, hid, hrepo⟩ := h.repo_row
  rw [resolveBranchWorkspaceSubpath, hid]
  refine (sound_getProjectRepo (hpre repoId)).trans ?_
  rw [hrepo]
  show Sound pre (Answers w) Q (match repo.subpath with
    | some subpath => ofExcept id (validateWorkspaceSubpath subpath) >>= fun v =>
      Pure.pure (some ("home:".toList ++ repoNameFromGithubRepo repo.githubRepo ++ "/".toList ++ v))
    | none => Pure.pure (some ("home:".toList ++ repoNameFromGithubRepo repo.githubRepo))) ↔ _
  cases hsubpath : repo.subpath with
  | none =>
    rw [workPath, hsubpath] at hrest
    obtain rfl := Except.ok.inj hrest
    exact sound_pure
  | some subpath =>
    rw [workPath, hsubpath] at hrest
    dsimp only at hrest ⊢
    cases hvalid : validateWorkspaceSubpath subpath with
    | error e =>
      rw [hvalid] at hrest
      cases hrest
    | ok validated =>
      rw [hvalid] at hrest
      obtain rfl := Except.ok.inj hrest
      have happend : "home:".toList ++ repoNameFromGithubRepo repo.githubRepo ++ "/".toList ++ validated =
          "home:".toList ++ (repoNameFromGithubRepo repo.githubRepo ++ '/' :: validated) := by
        rw [List.append_assoc, List.append_assoc]
        rfl
      rw [← happend]
      exact sound_pure

/-! ## The setup -/

section Setup

variable {path : Text}

theorem sound_ensureCloned (wsName repoSubpath repoSlug : Text) :
    Sound (Call.At path) (Answers w) (fun _ => True) (ensureCloned wsName repoSubpath repoSlug) ↔
      resolveWorkspaceRepoPath repoSubpath = path := by
  rw [ensureCloned]
  refine sound_perform_bind.trans ?_
  constructor
  · rintro ⟨-, h⟩
    -- The clone is made where the test fails.
    exact (h (.error (.commandFailed [])) trivial).1
  · intro hpath
    refine ⟨congrArg (· ++ "/.git".toList) hpath, fun r _ => ?_⟩
    rcases r with (e | u)
    · cases e with
      | commandFailed message => exact ⟨hpath, fun r _ => sound_ofExcept.mpr fun _ _ => trivial⟩
      | _ => trivial
    · trivial

/-- After the clone, no call is about its directory. -/
theorem sound_cloneRepoIntoWorkspace (wsName repoSubpath repoSlug baseRef branchName : Text) :
    Sound (Call.At path) (Answers w) (fun _ => True)
        (cloneRepoIntoWorkspace wsName repoSubpath repoSlug baseRef branchName) ↔
      resolveWorkspaceRepoPath repoSubpath = path := by
  rw [cloneRepoIntoWorkspace, sound_bind, ← sound_ensureCloned wsName repoSubpath repoSlug]
  refine ⟨fun h => h.mono fun _ _ => trivial, fun h => h.mono fun _ _ => ?_⟩
  refine ⟨trivial, fun _ _ => ⟨trivial, fun r _ => sound_ofExcept_bind.mpr fun _ _ => ?_⟩⟩
  have hfetch : Sound (Call.At path) (Answers w) (fun _ => True) (fetchBranch baseRef branchName) := by
    rw [fetchBranch]
    split
    · refine ⟨trivial, fun r _ => ?_⟩
      rcases r with (e | u)
      · trivial
      · trivial
    · trivial
  refine hfetch.bind fun _ _ => ⟨trivial, fun r _ => sound_ofExcept.mpr fun _ _ => trivial⟩

theorem sound_resolveBranchRepoSlug {project : Project} {repoId : Text}
    (hid : branch.projectRepoId = some repoId) (hrepo : w.projectRepos.lookup repoId = some repo)
    {f : Text → WorkspaceM α} {Q : α → Prop} :
    Sound (Call.At path) (Answers w) Q (resolveBranchRepoSlug project branch >>= f) ↔
      Sound (Call.At path) (Answers w) Q (f repo.githubRepo) := by
  rw [sound_bind, resolveBranchRepoSlug, hid]
  refine (sound_getProjectRepo trivial).trans ?_
  rw [hrepo]
  exact sound_pure

/-- The setup of a branch looks for the clone and makes it where the repo is worked on. -/
theorem sound_setupRemoteRepoClone {rest : Text}
    (h : InWorkspace w wsName branchId branch repo) (hrest : workPath repo = .ok rest) :
    Sound (Call.At path) (Answers w) (fun _ => True) (setupRemoteRepoClone branchId) ↔
      "/home/bloxer/".toList ++ rest = path := by
  obtain ⟨project, hproject⟩ := Option.isSome_iff_exists.mp h.project_row
  obtain ⟨repoId, hid, hrepo⟩ := h.repo_row
  rw [setupRemoteRepoClone]
  refine (sound_getBranch trivial).trans ?_
  rw [h.branch_row]
  refine sound_some_bind.trans ((sound_getProject trivial).trans ?_)
  rw [hproject, h.workspace]
  refine sound_some_bind.trans (sound_some_bind.trans (sound_bind.trans ?_))
  have hread (repoId : Text) : Call.At path (.getProjectRepo repoId) := trivial
  refine (sound_resolveBranchWorkspaceSubpath hread h hrest).trans ?_
  refine (sound_resolveBranchRepoSlug hid hrepo).trans ?_
  rw [← resolve_home, ← sound_cloneRepoIntoWorkspace wsName _ repo.githubRepo (normalizeBranchRef branch.baseBranch)
    branch.branchName, sound_bind]
  refine ⟨fun h => h.mono fun _ _ => trivial, fun h => h.mono fun _ _ => ?_⟩
  exact ⟨trivial, fun r _ => sound_ofExcept.mpr fun _ _ => trivial⟩

end Setup

theorem workPath_of_none (h : repo.subpath = none) :
    workPath repo = .ok (repoNameFromGithubRepo repo.githubRepo) := by
  rw [workPath, h]

theorem workPath_of_some {subpath validated : Text} (h : repo.subpath = some subpath)
    (hvalid : validateWorkspaceSubpath subpath = .ok validated) :
    workPath repo = .ok (repoNameFromGithubRepo repo.githubRepo ++ '/' :: validated) := by
  rw [workPath, h]
  dsimp only
  rw [hvalid]
  rfl

/-- With a subpath, the clone is made below the directory. -/
theorem agrees_iff (h : InWorkspace w wsName branchId branch repo) :
    Sound (Call.At (repoDirectory repo)) (Answers w) (fun _ => True) (setupRemoteRepoClone branchId) ↔
      repo.subpath = none := by
  cases hsubpath : repo.subpath with
  | none =>
    refine iff_of_true ?_ rfl
    exact (sound_setupRemoteRepoClone h (workPath_of_none hsubpath)).mpr rfl
  | some subpath =>
    obtain ⟨validated, hvalid⟩ := h.valid subpath hsubpath
    refine iff_of_false (fun hsound => ?_) (Option.some_ne_none subpath)
    have hpath := (sound_setupRemoteRepoClone h (workPath_of_some hsubpath hvalid)).mp hsound
    have hname := List.append_cancel_left hpath
    exact List.cons_ne_nil _ _ (List.append_right_eq_self.mp hname)

theorem repoDirectory_ne_iff (repo repo' : ProjectRepo) :
    repoDirectory repo ≠ repoDirectory repo' ↔ nameWords repo.githubRepo ≠ nameWords repo'.githubRepo := by
  have hnames : repoDirectory repo = repoDirectory repo' ↔
      repoNameFromGithubRepo repo.githubRepo = repoNameFromGithubRepo repo'.githubRepo := List.append_right_inj _
  exact (hnames.trans (repoName_eq_iff _ _)).not

/-- The clones are where they are looked for if no repo has a subpath and each has words of its own, and not otherwise. -/
theorem clonesWhereLooked_iff : ClonesWhereLooked w ↔
    (∀ {wsName branchId branch repo}, InWorkspace w wsName branchId branch repo → repo.subpath = none) ∧
    ∀ {wsName branchId branchId' branch branch' repo repo'}, InWorkspace w wsName branchId branch repo →
      InWorkspace w wsName branchId' branch' repo' → repo.githubRepo ≠ repo'.githubRepo →
      nameWords repo.githubRepo ≠ nameWords repo'.githubRepo := by
  constructor
  · intro h
    constructor
    · intro wsName branchId branch repo hin
      exact (agrees_iff hin).mp (h.agrees hin ((namesDirectory_iff hin).mpr rfl))
    · intro wsName branchId branchId' branch branch' repo repo' hin hin' hne
      rw [← repoDirectory_ne_iff]
      exact h.distinct hin hin' hne ((namesDirectory_iff hin).mpr rfl) ((namesDirectory_iff hin').mpr rfl)
  · rintro ⟨hsubpath, hwords⟩
    refine ⟨fun hin hnames => ?_, fun hin _ subpath hmem => ?_, fun hin hin' hne hnames hnames' => ?_⟩
    · obtain rfl := (namesDirectory_iff hin).mp hnames
      exact (agrees_iff hin).mpr (hsubpath hin)
    · exact absurd ((hsubpath hin).symm.trans hmem) (Option.some_ne_none subpath).symm
    · obtain rfl := (namesDirectory_iff hin).mp hnames
      obtain rfl := (namesDirectory_iff hin').mp hnames'
      exact (repoDirectory_ne_iff _ _).mpr (hwords hin hin' hne)

end

/-- One branch, of a repo with a subpath. -/
def monorepo : World ℕ where
  branches := AList.insert ['b'] ⟨['p'], some ['r'], ['f'], ['m'], some ['w'], none⟩ ∅
  projects := AList.insert ['p'] ⟨['n'], none⟩ ∅
  projectRepos := AList.insert ['r'] ⟨"block/builderbot".toList, some "apps/staged".toList⟩ ∅
  remote := ⟨∅, ['m']⟩
  clone := none

theorem monorepo_inWorkspace : InWorkspace monorepo ['w'] ['b'] ⟨['p'], some ['r'], ['f'], ['m'], some ['w'], none⟩
    ⟨"block/builderbot".toList, some "apps/staged".toList⟩ where
  branch_row := rfl
  project_row := rfl
  workspace := rfl
  repo_row := ⟨['r'], rfl, rfl⟩
  valid subpath hsubpath := by
    obtain rfl := Option.some.inj hsubpath
    exact ⟨"apps/staged".toList, by decide⟩

/-- The clone is made in a directory of the clone that is looked for. -/
theorem monorepo_elsewhere : ¬ ClonesWhereLooked monorepo := by
  intro h
  have hsound := h.agrees monorepo_inWorkspace ((namesDirectory_iff monorepo_inWorkspace).mpr rfl)
  exact absurd ((agrees_iff monorepo_inWorkspace).mp hsound) (Option.some_ne_none _)

end Builderbot.Staged.WorkspaceClone
