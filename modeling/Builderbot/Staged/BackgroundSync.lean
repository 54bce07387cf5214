import Builderbot.Git.Clone
import Builderbot.Lib.Run

/-!
# The background sync

`sync_repo` of `apps/staged/src-tauri/src/background_sync.rs` keeps the main clone of a repository at the
default branch of its origin. It runs one git command after the other, and the user may commit and edit
between any two of them. A clone that is behind is fast-forwarded unless it is dirty, one that is ahead is
left alone, and one that has diverged is reset.
-/

namespace Builderbot.Staged

open Lib.Text Git

/-! ## The default branch -/

/-- The branch in a line of `git remote show origin`. -/
def headBranchOfLine (line : Text) : Option Text := do
  let rest ← List.dropPrefix? (trim line) "HEAD branch:".toList
  let branch := trim rest
  if branch ≠ [] ∧ branch ≠ "(unknown)".toList then some branch else none

/-- `detect_default_branch_from_remote`, with the output of `git remote show origin` if it succeeded. -/
def detectDefaultBranchFromRemote {κ : Type} (remoteShow : Option Text) (originRefs : Table Text κ) :
    Text :=
  match remoteShow.bind fun output => (lines output).findSome? headBranchOfLine with
  | some branch => branch
  | none =>
    if (originRefs.lookup "main".toList).isSome then "main".toList
    else if (originRefs.lookup "master".toList).isSome then "master".toList
    else "main".toList

/-! ## The relation to the origin -/

inductive UpstreamAction where
  | inSync
  | originAhead
  | localAhead
  | diverged
  | noUpstream
deriving DecidableEq, Repr

/-- `parse().ok().unwrap_or(0)` of a printed number. -/
def parsedU32 (n : ℕ) : ℕ := if n < 2 ^ 32 then n else 0

/-- The numbers of commits on each side give the action. -/
def actionOf : ℕ → ℕ → UpstreamAction
  | 0, 0 => .inSync
  | _, 0 => .localAhead
  | 0, _ => .originAhead
  | _, _ => .diverged

section Relation

variable {κ : Type} [DecidableEq κ] (commits : Commits κ)

/-- The end of `compute_upstream_relation`, from `rev-list --left-right --count`. -/
def countsAction (head origin : κ) : UpstreamAction :=
  actionOf (parsedU32 (commits.missing head origin)) (parsedU32 (commits.missing origin head))

theorem actionOf_eq_diverged {ahead behind : ℕ} (h : actionOf ahead behind = .diverged) :
    ahead ≠ 0 ∧ behind ≠ 0 := by
  unfold actionOf at h
  split at h
  · cases h
  · cases h
  · cases h
  · rename_i hahead hbehind _
    exact ⟨fun h => by simp_all, fun h => by simp_all⟩

/-- Neither side reaches the other. -/
theorem countsAction_diverged {head origin : κ} (h : countsAction commits head origin = .diverged) :
    ¬ commits.Reaches origin head ∧ ¬ commits.Reaches head origin := by
  have hzero : parsedU32 0 = 0 := rfl
  obtain ⟨hahead, hbehind⟩ := actionOf_eq_diverged h
  refine ⟨fun hreach => hahead ?_, fun hreach => hbehind ?_⟩
  · rw [History.missing_eq_zero.mpr hreach, hzero]
  · rw [History.missing_eq_zero.mpr hreach, hzero]

end Relation

/-! ## The commands of a tick -/

/-- The command that `sync_repo` runs next. `stored` is the default branch in the database. -/
inductive SyncPhase (κ : Type) where
  | idle
  | readBare (stored : Option Text)
  | unsetBare (stored : Option Text)
  | restoreWorktree (stored : Option Text)
  | resolveDefault (stored : Option Text)
  | fetch (branch : Text)
  | originSha (branch : Text)
  | headSha (branch : Text) (origin : κ)
  | counts (branch : Text)
  | dirtyCheck (branch : Text)
  | fastForward (branch : Text)
  | reset (branch : Text)
  | emitEvent

structure SyncState (κ : Type) where
  clone : Clone κ
  /-- The branches of the origin. -/
  remote : Table Text κ := ∅
  phase : SyncPhase κ := .idle

inductive SyncEvent (κ : Type) where
  /-- The user writes or deletes a file. -/
  | edit (path : Text) (content : Option Text)
  /-- `git add`. -/
  | stage (path : Text)
  /-- The user commits the index on top of `HEAD`. -/
  | commit (new : κ)
  /-- Somebody pushes, with force if the branch does not go forward. -/
  | push (branch : Text) (target : κ)
  /-- The loop calls `sync_repo`. -/
  | tick (stored : Option Text)
  /-- The next command of `sync_repo`, which may fail, with the output of `git remote show origin`. -/
  | sync (failed : Bool) (remoteShow : Option Text)

variable {κ : Type} [DecidableEq κ] (commits : Commits κ) (ignored : Text → Bool)

/-- A file gets a content, or none. -/
def setFile (files : Files) (path : Text) : Option Text → Files
  | some content => files.insert path content
  | none => files.erase path

/-- The same contents. -/
def sameFiles (files files' : Files) : Bool :=
  (files.keys ++ files'.keys).all fun path => files.lookup path = files'.lookup path

/-- One command of `sync_repo`. -/
def SyncState.sync (s : SyncState κ) (failed : Bool) (remoteShow : Option Text) : Option (SyncState κ) :=
  match s.phase with
  | .idle => none
  | .readBare stored =>
    some { s with phase := if !failed && s.clone.bare then .unsetBare stored else .resolveDefault stored }
  | .unsetBare stored =>
    some (if failed then { s with phase := .idle }
      else { s with clone := { s.clone with bare := false }, phase := .restoreWorktree stored })
  | .restoreWorktree stored =>
    let branch := detectDefaultBranchFromRemote remoteShow s.clone.originRefs
    let clone := if failed then s.clone else (s.clone.checkout commits ignored branch).getD s.clone
    some { s with clone, phase := .resolveDefault stored }
  | .resolveDefault stored =>
    let branch := match stored with
      | some branch =>
        if branch ≠ [] then branch else detectDefaultBranchFromRemote remoteShow s.clone.originRefs
      | none => detectDefaultBranchFromRemote remoteShow s.clone.originRefs
    some { s with phase := .fetch branch }
  | .fetch branch =>
    match failed, s.remote.lookup branch with
    | false, some target =>
      some { s with
        clone := { s.clone with originRefs := s.clone.originRefs.insert branch target }
        phase := .originSha branch }
    | _, _ => some { s with phase := .idle }
  | .originSha branch =>
    match failed, s.clone.originRefs.lookup branch with
    | false, some origin => some { s with phase := .headSha branch origin }
    | _, _ => some { s with phase := .emitEvent }
  | .headSha branch origin =>
    match failed, s.clone.headCommit with
    | false, some head =>
      some { s with phase := if head = origin then .emitEvent else .counts branch }
    | _, _ => some { s with phase := .emitEvent }
  | .counts branch =>
    match failed, s.clone.headCommit, s.clone.originRefs.lookup branch with
    | false, some head, some origin =>
      some { s with
        phase := match countsAction commits head origin with
          | .originAhead => .dirtyCheck branch
          | .diverged => .reset branch
          | .inSync | .localAhead | .noUpstream => .emitEvent }
    | _, _, _ => some { s with phase := .idle }
  | .dirtyCheck branch =>
    let dirty := !failed && s.clone.hasStatus commits ignored
    some { s with phase := if dirty then .idle else .fastForward branch }
  | .fastForward branch =>
    let merged := (s.clone.originRefs.lookup branch).bind (s.clone.mergeFfOnly commits ignored)
    match failed, merged with
    | false, some clone => some { s with clone, phase := .emitEvent }
    | _, _ => some { s with phase := .idle }
  | .reset branch =>
    match failed, s.clone.originRefs.lookup branch with
    | false, some target => some { s with clone := s.clone.resetHard commits target, phase := .emitEvent }
    | _, _ => some { s with phase := .idle }
  | .emitEvent => some { s with phase := .idle }

/-- The system of the user, the origin and the sync. -/
def SyncState.step (s : SyncState κ) : SyncEvent κ → Option (SyncState κ)
  | .edit path content =>
    some { s with clone := { s.clone with worktree := setFile s.clone.worktree path content } }
  | .stage path =>
    some { s with
      clone := { s.clone with index := setFile s.clone.index path (s.clone.worktree.lookup path) } }
  | .commit new =>
    if (∀ head ∈ s.clone.headCommit, head ∈ commits.parents new) ∧
        sameFiles (commits.tree new) s.clone.index = true then
      some { s with clone := s.clone.moveHead new }
    else none
  | .push branch target => some { s with remote := s.remote.insert branch target }
  | .tick stored =>
    match s.phase with
    | .idle => some { s with phase := .readBare stored }
    | _ => none
  | .sync failed remoteShow => s.sync commits ignored failed remoteShow

/-! ## What a tick keeps -/

namespace SyncState

variable {commits ignored} {s t u : SyncState κ}

variable (commits) in
/-- What a tick has to find: `HEAD` is on the branch that is checked out in a clone that was bare, and
`HEAD` and the branch of the origin have not diverged. -/
def Safe (s : SyncState κ) : SyncEvent κ → Prop
  | .sync _ remoteShow =>
    match s.phase with
    | .restoreWorktree _ =>
      let branch := detectDefaultBranchFromRemote remoteShow s.clone.originRefs
      s.clone.head = .on branch ∧ s.clone.branches.lookup branch ≠ none
    | .counts branch =>
      ∀ head ∈ s.clone.headCommit, ∀ origin ∈ s.clone.originRefs.lookup branch,
        commits.Reaches origin head ∨ commits.Reaches head origin
    | _ => True
  | _ => True

/-- No reset is about to happen. -/
def NoReset (s : SyncState κ) : Prop := ∀ branch, s.phase ≠ .reset branch

/-- What the commits and the edits of a clone become in a command that loses nothing. -/
structure Kept (commits : Commits κ) (before after : Clone κ) : Prop where
  edits : before.KeepsEdits commits after
  reaches : ∀ commit, before.HeadReaches commits commit → after.HeadReaches commits commit

section

omit [DecidableEq κ]

theorem Kept.of_head {before after : Clone κ} (hedits : before.KeepsEdits commits after)
    (hhead : after.headCommit = before.headCommit) : Kept commits before after :=
  ⟨hedits, fun _ h => h.of_headCommit hhead⟩

theorem Kept.refl (clone : Clone κ) : Kept commits clone clone := .of_head (.of_eq rfl rfl) rfl

/-- A clone in which only remote-tracking branches and the configuration differ. -/
theorem Kept.of_refs (clone : Clone κ) (originRefs : Table Text κ) (bare : Bool) :
    Kept commits clone { clone with originRefs, bare } := .of_head (.of_eq rfl rfl) rfl

end

/-- A command that loses nothing is followed by no reset. -/
theorem sync_kept {failed : Bool} {remoteShow : Option Text} (hs : s.NoReset)
    (hsafe : s.Safe commits (.sync failed remoteShow))
    (h : s.sync commits ignored failed remoteShow = some t) :
    t.NoReset ∧ Kept commits s.clone t.clone := by
  obtain ⟨clone, remote, phase⟩ := s
  cases phase with
  | idle => cases h
  | readBare stored =>
    obtain rfl := Option.some.inj h
    refine ⟨fun branch => ?_, Kept.refl clone⟩
    show (if _ then _ else _) ≠ _
    split <;> simp
  | unsetBare stored =>
    cases failed with
    | true =>
      obtain rfl := Option.some.inj h
      exact ⟨fun branch => by simp, Kept.refl clone⟩
    | false =>
      obtain rfl := Option.some.inj h
      exact ⟨fun branch => by simp, Kept.of_refs clone _ _⟩
  | restoreWorktree stored =>
    obtain rfl := Option.some.inj h
    refine ⟨fun branch => by simp, ?_⟩
    obtain ⟨hhead, hborn⟩ := hsafe
    cases failed with
    | true => exact Kept.refl clone
    | false =>
      show Kept commits clone ((clone.checkout commits ignored _).getD clone)
      rcases hcheckout : clone.checkout commits ignored
        (detectDefaultBranchFromRemote remoteShow clone.originRefs) with _ | after
      · exact Kept.refl clone
      · obtain ⟨hedits, hcommit⟩ := Clone.checkout_keeps hhead hborn hcheckout
        exact .of_head hedits hcommit
  | resolveDefault | emitEvent =>
    obtain rfl := Option.some.inj h
    exact ⟨fun branch => by simp, Kept.refl clone⟩
  | fetch branch =>
    simp only [sync] at h
    split at h
    · obtain rfl := Option.some.inj h
      exact ⟨fun branch => by simp, Kept.of_refs clone _ _⟩
    · obtain rfl := Option.some.inj h
      exact ⟨fun branch => by simp, Kept.refl clone⟩
  | originSha branch =>
    simp only [sync] at h
    split at h
    · obtain rfl := Option.some.inj h
      exact ⟨fun branch => by simp, Kept.refl clone⟩
    · obtain rfl := Option.some.inj h
      exact ⟨fun branch => by simp, Kept.refl clone⟩
  | headSha branch origin =>
    simp only [sync] at h
    split at h
    · obtain rfl := Option.some.inj h
      refine ⟨fun branch => ?_, Kept.refl clone⟩
      show (if _ then _ else _) ≠ _
      split <;> simp
    · obtain rfl := Option.some.inj h
      exact ⟨fun branch => by simp, Kept.refl clone⟩
  | counts branch =>
    -- the one place where the next command may be a reset
    simp only [sync] at h
    split at h
    · rename_i head origin hhead horigin
      obtain rfl := Option.some.inj h
      refine ⟨fun branch' => ?_, Kept.refl clone⟩
      show (match countsAction commits head origin with
        | .originAhead => _
        | .diverged => _
        | .inSync | .localAhead | .noUpstream => _) ≠ _
      split
      · simp
      · rename_i hdiverged
        obtain ⟨hnot, hnot'⟩ := countsAction_diverged commits hdiverged
        rcases hsafe head hhead origin horigin with hreach | hreach
        · exact absurd hreach hnot
        · exact absurd hreach hnot'
      all_goals simp
    · obtain rfl := Option.some.inj h
      exact ⟨fun branch => by simp, Kept.refl clone⟩
  | dirtyCheck branch =>
    obtain rfl := Option.some.inj h
    refine ⟨fun branch => ?_, Kept.refl clone⟩
    show (if _ then _ else _) ≠ _
    split <;> simp
  | fastForward branch =>
    simp only [sync] at h
    split at h
    · rename_i after hmerged
      obtain rfl := Option.some.inj h
      obtain ⟨target, -, hmerge⟩ := Option.bind_eq_some_iff.mp hmerged
      obtain ⟨hedits, hreaches⟩ := Clone.mergeFfOnly_keeps hmerge
      exact ⟨fun branch => by simp, ⟨hedits, hreaches⟩⟩
    · obtain rfl := Option.some.inj h
      exact ⟨fun branch => by simp, Kept.refl clone⟩
  | reset branch => exact absurd rfl (hs branch)

/-- A step of the system loses no commit, and a command of the sync no edit. -/
theorem step_kept {e : SyncEvent κ} (hs : s.NoReset) (hsafe : s.Safe commits e)
    (h : s.step commits ignored e = some t) :
    t.NoReset ∧ (∀ commit, s.clone.HeadReaches commits commit → t.clone.HeadReaches commits commit) ∧
      (∀ failed remoteShow, e = .sync failed remoteShow → s.clone.KeepsEdits commits t.clone) := by
  cases e with
  | edit | stage =>
    obtain rfl := Option.some.inj h
    exact ⟨hs, fun _ hc => hc.of_headCommit rfl, fun _ _ he => by cases he⟩
  | commit new =>
    simp only [step] at h
    split at h
    · rename_i hnew
      obtain rfl := Option.some.inj h
      refine ⟨hs, fun _ hc => ?_, fun _ _ he => by cases he⟩
      exact hc.moveHead fun head hhead => .of_mem_parents (hnew.1 head hhead)
    · cases h
  | push branch target =>
    obtain rfl := Option.some.inj h
    exact ⟨hs, fun _ hc => hc, fun _ _ he => by cases he⟩
  | tick stored =>
    simp only [step] at h
    split at h
    · obtain rfl := Option.some.inj h
      exact ⟨fun branch => by simp, fun _ hc => hc, fun _ _ he => by cases he⟩
    · cases h
  | sync failed remoteShow =>
    obtain ⟨hreset, hkept⟩ := sync_kept hs hsafe h
    exact ⟨hreset, hkept.reaches, fun _ _ _ => hkept.edits⟩

instance (s : SyncState κ) (e : SyncEvent κ) : Decidable (s.Safe commits e) :=
  match e with
  | .sync _ remoteShow =>
    match h : s.phase with
    | .restoreWorktree _ =>
      let branch := detectDefaultBranchFromRemote remoteShow s.clone.originRefs
      decidable_of_iff (s.clone.head = .on branch ∧ s.clone.branches.lookup branch ≠ none)
        (by simp only [Safe, h]; rfl)
    | .counts branch =>
      decidable_of_iff (∀ head ∈ s.clone.headCommit, ∀ origin ∈ s.clone.originRefs.lookup branch,
        commits.Reaches origin head ∨ commits.Reaches head origin) (by simp only [Safe, h])
    | .idle | .readBare _ | .unsetBare _ | .resolveDefault _ | .fetch _ | .originSha _ | .headSha _ _
    | .dirtyCheck _ | .fastForward _ | .reset _ | .emitEvent => .isTrue (by simp [Safe, h])
  | .edit _ _ | .stage _ | .commit _ | .push _ _ | .tick _ => .isTrue trivial

/-- The commit `0` and others on top of it, each with one file. -/
def starCommits : Commits ℕ where
  parents := fun c => if c = 0 then [] else [0]
  depth := fun c => if c = 0 then 0 else 1
  depth_lt := by
    intro c p hp
    by_cases hc : c = 0
    · simp [hc] at hp
    · obtain rfl : p = 0 := by simpa [hc] using hp
      simp [hc]
  tree := fun c => (∅ : Files).insert ['f'] (if c = 1 then ['u'] else ['a'])

/-- A clone of the commit `0` on its branch. -/
def freshClone : Clone ℕ where
  head := .on ['m']
  branches := (∅ : Table Text ℕ).insert ['m'] 0
  index := (∅ : Files).insert ['f'] ['a']
  worktree := (∅ : Files).insert ['f'] ['a']

/-- The commands of a tick on the branch `m`. -/
def tickCommands (n : ℕ) : List (SyncEvent ℕ) := .tick (some ['m']) :: List.replicate n (.sync false none)

end SyncState

end Builderbot.Staged
