import Builderbot.Git.Types
import Builderbot.Lib.History
import Builderbot.Lib.Table

/-!
# Clones

A clone has a `HEAD`, local and remote-tracking branches, an index and a working tree. The commands that
move `HEAD` are modelled as git documents them: `merge --ff-only` and `checkout` go from one tree to another
by the two-tree merge of `git read-tree`, which fails before it would lose a change, and `reset --hard`
replaces whatever is there.
-/

namespace Builderbot.Git

/-- Contents by path. -/
abbrev Files := Table Text Text

/-- Commits with their trees. -/
structure Commits (κ : Type) extends History κ where
  tree : κ → Files

inductive Head (κ : Type) where
  | on (branch : Text)
  | detached (commit : κ)
deriving DecidableEq, Repr

structure Clone (κ : Type) where
  head : Head κ
  branches : Table Text κ := ∅
  /-- `refs/remotes/origin`. -/
  originRefs : Table Text κ := ∅
  index : Files := ∅
  worktree : Files := ∅
  /-- `core.bare`. -/
  bare : Bool := false

/-! ## Two trees -/

/-- What becomes of a path. -/
inductive PathMerge where
  | keep
  | take
  | fail
deriving DecidableEq, Repr

/-- The table of `git read-tree` for two trees `h` and `m`, where `i` is in the index, which is `clean` if
the working tree has the same. -/
def twoWay (clean : Bool) (i h m : Option Text) : PathMerge :=
  match i with
  | none =>
    match h, m with
    | none, some _ => .take
    | some h, some m => if h = m then .keep else .fail
    | _, none => .keep
  | some i =>
    if h = m then .keep
    else if m = some i then .keep
    else if h = some i ∧ clean = true then .take
    else .fail

/-- A path that is taken over had no change. -/
theorem twoWay_take {clean : Bool} {i h m : Option Text} (htake : twoWay clean i h m = .take) :
    i = h ∧ (h ≠ none → clean = true) := by
  rcases i with _ | i
  · rcases h with _ | h
    · exact ⟨rfl, fun hne => absurd rfl hne⟩
    · rcases m with _ | m
      · cases htake
      · rw [twoWay] at htake
        split at htake <;> cases htake
  · rw [twoWay] at htake
    split at htake
    · cases htake
    · split at htake
      · cases htake
      · split at htake
        · rename_i hclean
          exact ⟨hclean.1.symm, fun _ => hclean.2⟩
        · cases htake

namespace Clone

variable {κ : Type} (commits : Commits κ) (clone : Clone κ)

def headCommit : Option κ :=
  match clone.head with
  | .on branch => clone.branches.lookup branch
  | .detached commit => some commit

def headTree : Files := (clone.headCommit.map commits.tree).getD ∅

/-- `HEAD`, or the branch that it is on, moves. -/
def moveHead (target : κ) : Clone κ :=
  match clone.head with
  | .on branch => { clone with branches := clone.branches.insert branch target }
  | .detached _ => { clone with head := .detached target }

/-- What becomes of a path when the tree of `HEAD` is replaced by another one. A file that is not tracked
is overwritten only if it is ignored. -/
def pathMerge (ignored : Text → Bool) (target : Files) (path : Text) : PathMerge :=
  let here := clone.worktree.lookup path
  let indexed := clone.index.lookup path
  match twoWay (here = indexed) indexed ((clone.headTree commits).lookup path) (target.lookup path) with
  | .take => if indexed = none ∧ here ≠ none ∧ ignored path = false then .fail else .take
  | merge => merge

/-- The paths that a change of trees may concern. -/
def paths (target : Files) : List Text :=
  (clone.headTree commits).keys ++ target.keys ++ clone.index.keys ++ clone.worktree.keys

/-- The index and the working tree after a change of trees, which fails if one path does. -/
def switchTree (ignored : Text → Bool) (target : Files) : Option (Clone κ) :=
  let paths := clone.paths commits target
  if paths.any fun path => clone.pathMerge commits ignored target path = .fail then none
  else
    let result (before : Files) (path : Text) :=
      if clone.pathMerge commits ignored target path = .take then target.lookup path else before.lookup path
    some { clone with
      index := .tabulate (result clone.index) paths
      worktree := .tabulate (result clone.worktree) paths }

/-- `git merge --ff-only`. -/
def mergeFfOnly [DecidableEq κ] (ignored : Text → Bool) (target : κ) : Option (Clone κ) :=
  match clone.headCommit with
  | none => (clone.switchTree commits ignored (commits.tree target)).map (moveHead · target)
  | some head =>
    if commits.Reaches head target then some clone
    else if commits.Reaches target head then
      (clone.switchTree commits ignored (commits.tree target)).map (moveHead · target)
    else none

/-- `git reset --hard`. -/
def resetHard (target : κ) : Clone κ :=
  let tree := commits.tree target
  let kept := clone.worktree.retain fun path _ => clone.index.lookup path = none
  moveHead { clone with index := tree, worktree := tree ∪ kept } target

/-- `git checkout`. A name that is no branch is a path that is restored from the index. -/
def checkout (ignored : Text → Bool) (name : Text) : Option (Clone κ) :=
  let switch (target : κ) := (clone.switchTree commits ignored (commits.tree target)).map fun switched =>
    { switched with head := .on name, branches := switched.branches.insert name target }
  match clone.branches.lookup name, clone.originRefs.lookup name with
  | some target, _ => switch target
  | none, some target => if clone.worktree.lookup name = none then switch target else none
  | none, none => (clone.index.lookup name).map fun content =>
    { clone with worktree := clone.worktree.insert name content }

/-- The commit a name stands for: that of a local branch, else of a branch of the origin. -/
def resolve (name : Text) : Option κ :=
  match clone.branches.lookup name with
  | some commit => some commit
  | none => if "origin/".toList <+: name then clone.originRefs.lookup (name.drop 7) else none

/-- `git checkout -B`: the branch is made at the start point, or moved there. -/
def checkoutReset (ignored : Text → Bool) (branch startPoint : Text) : Option (Clone κ) :=
  if clone.bare then none
  else
    (clone.resolve startPoint).bind fun target =>
      (clone.switchTree commits ignored (commits.tree target)).map fun switched =>
        { switched with head := .on branch, branches := switched.branches.insert branch target }

/-- `git status --porcelain` prints something. -/
def hasStatus (ignored : Text → Bool) : Bool :=
  (clone.paths commits ∅).any fun path =>
    let indexed := clone.index.lookup path
    indexed ≠ (clone.headTree commits).lookup path ||
      if indexed = none then clone.worktree.lookup path ≠ none && !ignored path
      else clone.worktree.lookup path ≠ indexed

/-! ## What is kept -/

/-- A file of the last commit or of the index. -/
def Tracked (path : Text) : Prop :=
  (clone.headTree commits).lookup path ≠ none ∨ clone.index.lookup path ≠ none

/-- The uncommitted changes of tracked files are in `after` as they were. -/
def KeepsEdits (after : Clone κ) : Prop :=
  ∀ path, clone.Tracked commits path →
    (clone.worktree.lookup path ≠ (clone.headTree commits).lookup path →
      after.worktree.lookup path = clone.worktree.lookup path) ∧
    (clone.index.lookup path ≠ (clone.headTree commits).lookup path →
      after.index.lookup path = clone.index.lookup path)

variable {commits clone} {ignored : Text → Bool}

theorem KeepsEdits.of_eq {after : Clone κ} (hindex : after.index = clone.index)
    (hworktree : after.worktree = clone.worktree) : clone.KeepsEdits commits after := by
  intro path _
  rw [hindex, hworktree]
  exact ⟨fun _ => rfl, fun _ => rfl⟩

/-- A path is taken over where there was no change. -/
theorem pathMerge_take {target : Files} {path : Text} (htracked : clone.Tracked commits path)
    (htake : clone.pathMerge commits ignored target path = .take) :
    clone.index.lookup path = (clone.headTree commits).lookup path ∧
      clone.worktree.lookup path = (clone.headTree commits).lookup path := by
  have htwo : twoWay (clone.worktree.lookup path = clone.index.lookup path) (clone.index.lookup path)
      ((clone.headTree commits).lookup path) (target.lookup path) = .take := by
    revert htake
    rw [pathMerge]
    split
    · intro _
      assumption
    · exact id
  obtain ⟨hindex, hclean⟩ := twoWay_take htwo
  have hhead : (clone.headTree commits).lookup path ≠ none := by
    rcases htracked with h | h
    · exact h
    · exact hindex ▸ h
  exact ⟨hindex, (of_decide_eq_true (hclean hhead)).trans hindex⟩

theorem lookup_eq_none_of_notMem_paths {target : Files} {path : Text}
    (h : path ∉ clone.paths commits target) :
    target.lookup path = none ∧ clone.index.lookup path = none ∧ clone.worktree.lookup path = none := by
  simp only [paths, List.mem_append, not_or] at h
  refine ⟨?_, ?_, ?_⟩
  · exact AList.lookup_eq_none.mpr h.1.1.2
  · exact AList.lookup_eq_none.mpr h.1.2
  · exact AList.lookup_eq_none.mpr h.2

/-- The files after a change of trees. -/
theorem switchTree_lookup {target : Files} {after : Clone κ}
    (h : clone.switchTree commits ignored target = some after) (path : Text) :
    after.index.lookup path = (if clone.pathMerge commits ignored target path = .take then
        target.lookup path else clone.index.lookup path) ∧
      after.worktree.lookup path = if clone.pathMerge commits ignored target path = .take then
        target.lookup path else clone.worktree.lookup path := by
  rw [switchTree] at h
  split at h
  · cases h
  · obtain rfl := Option.some.inj h
    simp only [Table.lookup_tabulate]
    by_cases hmem : path ∈ clone.paths commits target
    · simp only [if_pos hmem, and_self]
    · obtain ⟨htarget, hindex, hworktree⟩ := lookup_eq_none_of_notMem_paths hmem
      simp only [if_neg hmem, htarget, hindex, hworktree, ite_self, and_self]

theorem switchTree_head {target : Files} {after : Clone κ}
    (h : clone.switchTree commits ignored target = some after) :
    after.head = clone.head ∧ after.branches = clone.branches ∧ after.originRefs = clone.originRefs := by
  rw [switchTree] at h
  split at h
  · cases h
  · obtain rfl := Option.some.inj h
    exact ⟨rfl, rfl, rfl⟩

theorem switchTree_bare {target : Files} {after : Clone κ} (h : clone.switchTree commits ignored target = some after) :
    after.bare = clone.bare := by
  rw [switchTree] at h
  split at h
  · cases h
  · obtain rfl := Option.some.inj h
    rfl

theorem switchTree_keepsEdits {target : Files} {after : Clone κ}
    (h : clone.switchTree commits ignored target = some after) : clone.KeepsEdits commits after := by
  intro path htracked
  obtain ⟨hindex, hworktree⟩ := switchTree_lookup h path
  rw [hindex, hworktree]
  by_cases htake : clone.pathMerge commits ignored target path = .take
  · obtain ⟨heq, heq'⟩ := pathMerge_take htracked htake
    exact ⟨fun hne => absurd heq' hne, fun hne => absurd heq hne⟩
  · rw [if_neg htake, if_neg htake]
    exact ⟨fun _ => rfl, fun _ => rfl⟩

theorem headCommit_moveHead (target : κ) : (clone.moveHead target).headCommit = some target := by
  unfold moveHead headCommit
  rcases clone.head with branch | commit
  · exact AList.lookup_insert _
  · rfl

theorem moveHead_files (target : κ) :
    (clone.moveHead target).index = clone.index ∧ (clone.moveHead target).worktree = clone.worktree := by
  unfold moveHead
  rcases clone.head with branch | commit
  · exact ⟨rfl, rfl⟩
  · exact ⟨rfl, rfl⟩

variable (commits) in
/-- The commit is reachable from `HEAD`. -/
def HeadReaches (clone : Clone κ) (commit : κ) : Prop :=
  ∃ head, clone.headCommit = some head ∧ commits.Reaches head commit

theorem HeadReaches.of_headCommit {after : Clone κ} {commit : κ}
    (h : clone.HeadReaches commits commit) (heq : after.headCommit = clone.headCommit) :
    after.HeadReaches commits commit := by
  obtain ⟨head, hhead, hreach⟩ := h
  exact ⟨head, heq.trans hhead, hreach⟩

/-- A new commit over `HEAD` reaches what `HEAD` did. -/
theorem HeadReaches.moveHead {commit target : κ} (h : clone.HeadReaches commits commit)
    (htarget : ∀ head ∈ clone.headCommit, commits.Reaches target head) :
    (clone.moveHead target).HeadReaches commits commit := by
  obtain ⟨head, hhead, hreach⟩ := h
  exact ⟨target, headCommit_moveHead target, (htarget head hhead).trans hreach⟩

/-- A fast-forward loses nothing. -/
theorem mergeFfOnly_keeps [DecidableEq κ] {target : κ} {after : Clone κ}
    (h : clone.mergeFfOnly commits ignored target = some after) :
    clone.KeepsEdits commits after ∧
      ∀ commit, clone.HeadReaches commits commit → after.HeadReaches commits commit := by
  -- the clone after the change of trees, before `HEAD` moves
  have hswitch : ∀ switched, clone.switchTree commits ignored (commits.tree target) = some switched →
      (∀ head ∈ clone.headCommit, commits.Reaches target head) → switched.moveHead target = after →
      clone.KeepsEdits commits after ∧
        ∀ commit, clone.HeadReaches commits commit → after.HeadReaches commits commit := by
    rintro switched hswitch hreach rfl
    obtain ⟨hhead, hbranches, -⟩ := switchTree_head hswitch
    have hcommit : switched.headCommit = clone.headCommit := by
      rw [headCommit, headCommit, hhead, hbranches]
    obtain ⟨hindex, hworktree⟩ := @moveHead_files κ switched target
    refine ⟨?_, fun commit hcommit' => ?_⟩
    · rw [KeepsEdits, hindex, hworktree]
      exact switchTree_keepsEdits hswitch
    · exact (hcommit'.of_headCommit hcommit).moveHead (hcommit ▸ hreach)
  rw [mergeFfOnly] at h
  rcases hhead : clone.headCommit with _ | head
  · rw [hhead] at h
    obtain ⟨switched, hs, hafter⟩ := Option.map_eq_some_iff.mp h
    exact hswitch switched hs (by simp [hhead]) hafter
  · rw [hhead] at h
    simp only at h
    split at h
    · obtain rfl := Option.some.inj h
      exact ⟨KeepsEdits.of_eq rfl rfl, fun _ hc => hc⟩
    · split at h
      · rename_i hreach
        obtain ⟨switched, hs, hafter⟩ := Option.map_eq_some_iff.mp h
        exact hswitch switched hs (by simpa [hhead] using hreach) hafter
      · cases h

/-- Checking out the branch that `HEAD` is on loses nothing. -/
theorem checkout_keeps {name : Text} {after : Clone κ} (hhead : clone.head = .on name)
    (hborn : clone.branches.lookup name ≠ none)
    (h : clone.checkout commits ignored name = some after) :
    clone.KeepsEdits commits after ∧ after.headCommit = clone.headCommit := by
  obtain ⟨target, htarget⟩ := Option.ne_none_iff_exists'.mp hborn
  have hcommit : clone.headCommit = some target := by
    rw [headCommit, hhead]
    exact htarget
  simp only [checkout, htarget] at h
  obtain ⟨switched, hswitch, rfl⟩ := Option.map_eq_some_iff.mp h
  refine ⟨?_, ?_⟩
  · intro path htracked
    exact switchTree_keepsEdits hswitch path htracked
  · rw [hcommit]
    exact AList.lookup_insert _

/-! ## Moving a branch -/

/-- The tables of two clones have the same entries. -/
structure Same (clone after : Clone κ) : Prop where
  head : after.head = clone.head
  bare : after.bare = clone.bare
  branches : ∀ name, after.branches.lookup name = clone.branches.lookup name
  originRefs : ∀ name, after.originRefs.lookup name = clone.originRefs.lookup name
  index : ∀ path, after.index.lookup path = clone.index.lookup path
  worktree : ∀ path, after.worktree.lookup path = clone.worktree.lookup path

theorem Same.of_refs {refs : Table Text κ} (h : ∀ name, refs.lookup name = clone.originRefs.lookup name) :
    clone.Same { clone with originRefs := refs } :=
  ⟨rfl, rfl, fun _ => rfl, h, fun _ => rfl, fun _ => rfl⟩

/-- A path that is the same in both trees is kept. -/
theorem pathMerge_self {target : Files} {path : Text}
    (h : (clone.headTree commits).lookup path = target.lookup path) :
    clone.pathMerge commits ignored target path = .keep := by
  have hkeep : twoWay (clone.worktree.lookup path = clone.index.lookup path) (clone.index.lookup path)
      ((clone.headTree commits).lookup path) (target.lookup path) = .keep := by
    rw [h]
    cases clone.index.lookup path with
    | none =>
      cases target.lookup path with
      | none => rfl
      | some m => exact if_pos rfl
    | some i => exact if_pos rfl
  rw [pathMerge, hkeep]

/-- The tree of `HEAD` can be checked out, and nothing changes. -/
theorem switchTree_self {target : Files} (h : clone.headTree commits = target) :
    ∃ after, clone.switchTree commits ignored target = some after ∧ clone.Same after := by
  have hkeep (path : Text) : clone.pathMerge commits ignored target path = .keep := pathMerge_self (by rw [h])
  have hswitch : ∃ after, clone.switchTree commits ignored target = some after := by
    refine ⟨_, if_neg fun hfail => ?_⟩
    obtain ⟨path, -, hpath⟩ := List.any_eq_true.mp hfail
    rw [hkeep path] at hpath
    exact PathMerge.noConfusion (of_decide_eq_true hpath)
  obtain ⟨after, hafter⟩ := hswitch
  obtain ⟨hhead, hbranches, hrefs⟩ := switchTree_head hafter
  refine ⟨after, hafter, hhead, switchTree_bare hafter, fun name => by rw [hbranches], fun name => by rw [hrefs],
    fun path => ?_, fun path => ?_⟩
  · rw [(switchTree_lookup hafter path).1, hkeep path]
    rfl
  · rw [(switchTree_lookup hafter path).2, hkeep path]
    rfl

theorem switchTree_refs (refs : Table Text κ) (target : Files) :
    ({ clone with originRefs := refs }).switchTree commits ignored target =
      (clone.switchTree commits ignored target).map ({ · with originRefs := refs }) := by
  rw [switchTree, switchTree]
  by_cases hfail : ((clone.paths commits target).any fun path => clone.pathMerge commits ignored target path = .fail) = true
  · rw [if_pos (c := (clone.paths commits target).any _ = true) hfail]
    exact if_pos hfail
  · rw [if_neg (c := (clone.paths commits target).any _ = true) hfail]
    exact if_neg hfail

theorem resolve_refs {refs : Table Text κ} (h : ∀ name, refs.lookup name = clone.originRefs.lookup name) (name : Text) :
    ({ clone with originRefs := refs }).resolve name = clone.resolve name := by
  simp only [resolve, h]

/-- The remote-tracking branches may be in another order. -/
theorem checkoutReset_refs {refs : Table Text κ} (h : ∀ name, refs.lookup name = clone.originRefs.lookup name)
    (branch startPoint : Text) :
    ({ clone with originRefs := refs }).checkoutReset commits ignored branch startPoint =
      (clone.checkoutReset commits ignored branch startPoint).map ({ · with originRefs := refs }) := by
  simp only [checkoutReset, resolve_refs h, switchTree_refs]
  split
  · rfl
  · cases clone.resolve startPoint with
    | none => rfl
    | some target => simp only [Option.bind_some, Option.map_map, Function.comp_def]

theorem checkoutReset_eq_some {branch startPoint : Text} {after : Clone κ} :
    clone.checkoutReset commits ignored branch startPoint = some after ↔
      clone.bare = false ∧ ∃ target, clone.resolve startPoint = some target ∧
        ∃ switched, clone.switchTree commits ignored (commits.tree target) = some switched ∧
          { switched with head := .on branch, branches := switched.branches.insert branch target } = after := by
  rw [checkoutReset]
  cases clone.bare with
  | true => simp
  | false => simp [Option.bind_eq_some_iff, Option.map_eq_some_iff]

theorem checkoutReset_originRefs {branch startPoint : Text} {after : Clone κ}
    (h : clone.checkoutReset commits ignored branch startPoint = some after) : after.originRefs = clone.originRefs := by
  obtain ⟨-, target, -, switched, hswitch, rfl⟩ := checkoutReset_eq_some.mp h
  exact (switchTree_head hswitch).2.2

/-- Once a branch is at the start point, moving it there again changes nothing. -/
theorem checkoutReset_again {branch startPoint : Text} {after : Clone κ}
    (h : clone.checkoutReset commits ignored branch startPoint = some after) :
    ∃ again, after.checkoutReset commits ignored branch startPoint = some again ∧ after.Same again := by
  obtain ⟨hbare, target, htarget, switched, hswitch, rfl⟩ := checkoutReset_eq_some.mp h
  obtain ⟨-, hbranches, hrefs⟩ := switchTree_head hswitch
  -- the start point is where it was, also if it is the branch itself
  have hresolve : ({ switched with head := .on branch, branches := switched.branches.insert branch target } : Clone κ).resolve
      startPoint = some target := by
    by_cases hname : startPoint = branch
    · subst hname
      simp only [resolve, AList.lookup_insert]
    · rw [resolve] at htarget ⊢
      rw [AList.lookup_insert_ne hname, hbranches, hrefs]
      exact htarget
  have htree : ({ switched with head := .on branch, branches := switched.branches.insert branch target } : Clone κ).headTree
      commits = commits.tree target := by
    show ((AList.lookup branch (switched.branches.insert branch target)).map commits.tree).getD ∅ = commits.tree target
    rw [AList.lookup_insert]
    rfl
  obtain ⟨again, hagain, hsame⟩ := switchTree_self htree
  refine ⟨_, checkoutReset_eq_some.mpr ⟨(switchTree_bare hswitch).trans hbare, target, hresolve, again, hagain, rfl⟩,
    rfl, hsame.bare, fun name => ?_, hsame.originRefs, hsame.index, hsame.worktree⟩
  by_cases hname : name = branch
  · subst hname
    rw [AList.lookup_insert, AList.lookup_insert]
  · rw [AList.lookup_insert_ne hname]
    exact hsame.branches name

end Clone

end Builderbot.Git
