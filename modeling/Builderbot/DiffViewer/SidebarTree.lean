import Mathlib.Data.List.Flatten
import Builderbot.DiffViewer.FileEntries

/-!
# The tree of the changed files

`buildTree` and `compactTree` of `packages/diff-viewer/src/lib/utils/diffModalHelpers.ts`. The loop of `buildTree` walks
down by the names of a path and adds the nodes that are missing, whatever the nodes on the way are. `sort` is any sort
by the comparison given; `localeCompare` is a parameter.

`filesOf` lists the files below the directories. `filesOf_insertParts` says what the insertion of a path does to it, and
`Fits` tells when a file is added. The invariant `LevelWf` has no empty directory and no name twice.
-/

namespace Builderbot.DiffViewer.Sidebar

open KeyedList (upsert upsert_cases)

inductive TreeNode where
  | node (name path : JsString) (isDir : Bool) (children : List TreeNode) (file : Option FileEntry)

namespace TreeNode

def name : TreeNode → JsString
  | .node name _ _ _ _ => name

def isDir : TreeNode → Bool
  | .node _ _ isDir _ _ => isDir

def children : TreeNode → List TreeNode
  | .node _ _ _ children _ => children

def path : TreeNode → JsString
  | .node _ path _ _ _ => path

def file : TreeNode → Option FileEntry
  | .node _ _ _ _ file => file

def mapChildren (f : List TreeNode → List TreeNode) : TreeNode → TreeNode
  | .node name path isDir children file => .node name path isDir (f children) file

/-- Induction over the nodes of a list and below them. -/
theorem forest_induction {P : List TreeNode → Prop} (nil : P [])
    (node : ∀ name path isDir children file rest, P children → P rest →
      P (.node name path isDir children file :: rest)) (nodes : List TreeNode) : P nodes :=
  TreeNode.rec_1 (motive_1 := fun n => ∀ rest, P rest → P (n :: rest)) (motive_2 := P)
    (fun name path isDir children file hchildren rest => node name path isDir children file rest hchildren)
    nil (fun _ _ hn hrest => hn _ hrest) nodes

end TreeNode

/-! ## Building -/

def splitPath (path : JsString) : List JsString := path.splitOn slash

def joinPath (parts : List JsString) : JsString := [slash].intercalate parts

/-- The inner loop of `buildTree`, from the level that the parts in `done` have led to. After the last part nothing is
walked into. -/
def insertParts (file : FileEntry) : List JsString → List JsString → List TreeNode → List TreeNode
  | _, [], level => level
  | done, part :: rest, level =>
    let isLast := rest.isEmpty
    let pathSoFar := joinPath (done ++ [part])
    upsert (fun n => n.name = part) (.node part pathSoFar (!isLast) [] (if isLast then some file else none))
      (TreeNode.mapChildren (insertParts file (done ++ [part]) rest)) level

def insertFile (root : List TreeNode) (file : FileEntry) : List TreeNode :=
  insertParts file [] (splitPath file.path) root

section Sorting

variable (localeCompare : JsString → JsString → ℤ)

/-- Directories first, then by name. -/
def sortsBefore (a b : TreeNode) : Bool :=
  if a.isDir ≠ b.isDir then a.isDir else localeCompare a.name b.name ≤ 0

mutual

def sortNode : TreeNode → TreeNode
  | .node name path isDir children file =>
    .node name path isDir ((sortNodes children).mergeSort (sortsBefore localeCompare)) file

def sortNodes : List TreeNode → List TreeNode
  | [] => []
  | n :: rest => sortNode n :: sortNodes rest

end

/-- The nodes below are sorted first here; the comparison does not look at them. -/
def sortTree (nodes : List TreeNode) : List TreeNode :=
  (sortNodes localeCompare nodes).mergeSort (sortsBefore localeCompare)

def buildTree (entries : List FileEntry) : List TreeNode :=
  sortTree localeCompare (entries.foldl insertFile [])

end Sorting

/-- A directory with one child, which is a directory. -/
def isChain (isDir : Bool) (children : List TreeNode) : Bool :=
  isDir && children.length == 1 && children.head?.any TreeNode.isDir

mutual

def compactNode : TreeNode → TreeNode
  | .node name path isDir children file =>
    match isChain isDir children, compactTree children with
    | true, .node childName childPath childIsDir childChildren childFile :: _ =>
      .node (name ++ slash :: childName) childPath childIsDir childChildren childFile
    | _, compacted => .node name path isDir (if isDir then compacted else []) file

def compactTree : List TreeNode → List TreeNode
  | [] => []
  | n :: rest => compactNode n :: compactTree rest

end

/-! ## The files of a tree -/

mutual

/-- The files at or below a node that are reached through directories, with the names that lead to them. -/
def TreeNode.files : TreeNode → List (List JsString × Option FileEntry)
  | .node name _ isDir children file =>
    (if isDir then filesOf children else [([], file)]).map fun f => (name :: f.1, f.2)

def filesOf : List TreeNode → List (List JsString × Option FileEntry)
  | [] => []
  | n :: rest => n.files ++ filesOf rest

end

/-- A file with the names joined. -/
def joined (f : List JsString × Option FileEntry) : JsString × Option FileEntry :=
  (joinPath f.1, f.2)

/-- The tree has the entries, each once, where their paths say. -/
def Complete (entries : List FileEntry) (nodes : List TreeNode) : Prop :=
  ((filesOf nodes).map joined).Perm (entries.map fun e => (e.path, some e))

mutual

/-- No directory at or below a node has one child that is a directory. -/
def TreeNode.Compact : TreeNode → Prop
  | .node _ _ isDir children _ => isChain isDir children = false ∧ AllCompact children

def AllCompact : List TreeNode → Prop
  | [] => True
  | n :: rest => n.Compact ∧ AllCompact rest

end

theorem files_eq (n : TreeNode) :
    n.files = (if n.isDir then filesOf n.children else [([], n.file)]).map fun f => (n.name :: f.1, f.2) := by
  obtain ⟨name, path, isDir, children, file⟩ := n
  rw [TreeNode.files]
  rfl

variable {n : TreeNode}

theorem files_of_dir (hdir : n.isDir = true) :
    n.files = (filesOf n.children).map fun f => (n.name :: f.1, f.2) := by
  rw [files_eq, if_pos hdir]

theorem files_of_file (hfile : n.isDir = false) : n.files = [([n.name], n.file)] := by
  rw [files_eq, hfile]
  rfl

variable (nodes : List TreeNode)

theorem filesOf_eq_flatMap : filesOf nodes = nodes.flatMap TreeNode.files := by
  induction nodes with
  | nil => rfl
  | cons n rest ih => rw [filesOf, ih, List.flatMap_cons]

theorem filesOf_append (l r : List TreeNode) : filesOf (l ++ r) = filesOf l ++ filesOf r := by
  rw [filesOf_eq_flatMap, filesOf_eq_flatMap, filesOf_eq_flatMap, List.flatMap_append]

theorem mem_filesOf {nodes : List TreeNode} {f : List JsString × Option FileEntry} :
    f ∈ filesOf nodes ↔ ∃ n ∈ nodes, f ∈ n.files := by
  rw [filesOf_eq_flatMap, List.mem_flatMap]

/-- A file of a node is the node itself, or a file below the directory. -/
theorem mem_files {p : List JsString} {x : Option FileEntry} : (p, x) ∈ n.files ↔ ∃ q, p = n.name :: q ∧
      (n.isDir = true ∧ (q, x) ∈ filesOf n.children ∨ n.isDir = false ∧ q = [] ∧ x = n.file) := by
  cases hdir : n.isDir with
  | true =>
    rw [files_of_dir hdir, List.mem_map]
    constructor
    · rintro ⟨⟨q, y⟩, hq, heq⟩
      obtain ⟨rfl, rfl⟩ := Prod.mk.inj heq
      exact ⟨q, rfl, .inl ⟨rfl, hq⟩⟩
    · rintro ⟨q, rfl, ⟨-, hq⟩ | ⟨hfile, -⟩⟩
      · exact ⟨(q, x), hq, rfl⟩
      · exact absurd hfile Bool.noConfusion
  | false =>
    rw [files_of_file hdir, List.mem_singleton, Prod.mk.injEq]
    constructor
    · rintro ⟨rfl, rfl⟩
      exact ⟨[], rfl, .inr ⟨rfl, rfl, rfl⟩⟩
    · rintro ⟨q, rfl, ⟨hfile, -⟩ | ⟨-, rfl, rfl⟩⟩
      · exact absurd hfile Bool.noConfusion
      · exact ⟨rfl, rfl⟩

theorem ne_nil_of_mem_filesOf {nodes : List TreeNode} {f : List JsString × Option FileEntry} (hf : f ∈ filesOf nodes) :
    f.1 ≠ [] := by
  obtain ⟨n, -, hn⟩ := mem_filesOf.mp hf
  obtain ⟨q, hq, -⟩ := mem_files.mp hn
  rw [hq]
  exact List.cons_ne_nil _ _

/-! ## Inserting a path -/

/-- The parts lead through directories to a place where there is no node yet. -/
def Fits : List JsString → List TreeNode → Prop
  | [], _ => False
  | part :: rest, level => ∀ n, level.find? (fun n => n.name = part) = some n → n.isDir = true ∧ Fits rest n.children

variable (f : List TreeNode → List TreeNode)

theorem files_mapChildren_of_dir (hdir : n.isDir = true) :
    (n.mapChildren f).files = (filesOf (f n.children)).map fun g => (n.name :: g.1, g.2) := by
  obtain ⟨name, path, isDir, children, file⟩ := n
  exact files_of_dir hdir

theorem files_mapChildren_of_file (hfile : n.isDir = false) : (n.mapChildren f).files = n.files := by
  obtain ⟨name, path, isDir, children, file⟩ := n
  rw [files_of_file hfile]
  exact files_of_file hfile

/-- A path that fits adds its file, and any other one adds nothing. -/
theorem filesOf_insertParts (file : FileEntry) (done parts : List JsString) (level : List TreeNode) :
    (Fits parts level → (filesOf (insertParts file done parts level)).Perm ((parts, some file) :: filesOf level)) ∧
      (¬ Fits parts level → filesOf (insertParts file done parts level) = filesOf level) := by
  induction parts generalizing done level with
  | nil => exact ⟨False.elim, fun _ => rfl⟩
  | cons part rest ih =>
    rw [insertParts]
    rcases upsert_cases (fun n : TreeNode => decide (n.name = part)) _ _ level with
      ⟨l, n, r, rfl, hl, hn, heq⟩ | ⟨hnone, heq⟩
    · have hname : n.name = part := of_decide_eq_true hn
      have hfits : Fits (part :: rest) (l ++ n :: r) ↔ n.isDir = true ∧ Fits rest n.children := by
        rw [Fits, KeyedList.find?_append_cons hl hn]
        exact ⟨fun h => h n rfl, fun h m hm => Option.some.inj hm ▸ h⟩
      obtain ⟨hadd, hkeep⟩ := ih (done ++ [part]) n.children
      rw [heq, filesOf_append, filesOf_append, filesOf, filesOf, hfits]
      constructor
      · rintro ⟨hdir, hrest⟩
        rw [files_mapChildren_of_dir _ hdir, files_of_dir hdir, hname]
        refine (List.Perm.append_left _ (((hadd hrest).map _).append_right _)).trans ?_
        exact List.perm_middle
      · intro hbad
        cases hdir : n.isDir with
        | true =>
          rw [files_mapChildren_of_dir _ hdir, hkeep fun hrest => hbad ⟨hdir, hrest⟩, files_of_dir hdir]
        | false => rw [files_mapChildren_of_file _ hdir]
    · have hmissing : level.find? (fun n => decide (n.name = part)) = none := by
        rw [List.find?_eq_none]
        exact fun n hn => Bool.eq_false_iff.mp (hnone n hn)
      have hfits : Fits (part :: rest) level := by
        rw [Fits, hmissing]
        exact fun n hn => absurd hn (Option.some_ne_none n).symm
      refine ⟨fun _ => ?_, fun hbad => absurd hfits hbad⟩
      rw [heq, filesOf_append, filesOf, filesOf, List.append_nil]
      -- The new node: a file at the last part, else a directory that the rest of the path fits into.
      rcases rest with _ | ⟨next, rest⟩
      · rw [files_mapChildren_of_file _ rfl, files_of_file rfl]
        exact List.perm_append_singleton _ _
      · have hempty : Fits (next :: rest) [] := fun n hn => absurd hn (Option.some_ne_none n).symm
        have hnew := ((ih (done ++ [part]) []).1 hempty).map fun g => (part :: g.1, g.2)
        rw [files_mapChildren_of_dir _ rfl]
        exact (List.Perm.append_left _ hnew).trans (List.perm_append_singleton _ _)

/-! ## The invariant of the tree -/

mutual

/-- A directory has files, and no name twice. -/
def TreeNode.Wf : TreeNode → Prop
  | .node _ _ isDir children _ =>
    isDir = true → filesOf children ≠ [] ∧ (children.map TreeNode.name).Nodup ∧ AllWf children

def AllWf : List TreeNode → Prop
  | [] => True
  | n :: rest => n.Wf ∧ AllWf rest

end

structure LevelWf (level : List TreeNode) : Prop where
  nodup : (level.map TreeNode.name).Nodup
  all : ∀ n ∈ level, n.Wf

theorem allWf_iff : AllWf nodes ↔ ∀ n ∈ nodes, n.Wf := by
  induction nodes with
  | nil => exact iff_of_true trivial (List.forall_mem_nil _)
  | cons n rest ih => rw [AllWf, ih, List.forall_mem_cons]

theorem wf_iff (n : TreeNode) : n.Wf ↔ (n.isDir = true → filesOf n.children ≠ [] ∧ LevelWf n.children) := by
  obtain ⟨name, path, isDir, children, file⟩ := n
  rw [TreeNode.Wf, allWf_iff]
  exact ⟨fun h hdir => ⟨(h hdir).1, (h hdir).2.1, (h hdir).2.2⟩, fun h hdir => ⟨(h hdir).1, (h hdir).2.1, (h hdir).2.2⟩⟩

theorem LevelWf.nil : LevelWf [] := ⟨List.nodup_nil, List.forall_mem_nil _⟩

theorem name_mapChildren (n : TreeNode) : (n.mapChildren f).name = n.name := by
  cases n
  rfl

theorem isDir_mapChildren (n : TreeNode) : (n.mapChildren f).isDir = n.isDir := by
  cases n
  rfl

theorem children_mapChildren (n : TreeNode) : (n.mapChildren f).children = f n.children := by
  cases n
  rfl

variable {level : List TreeNode} {parts : List JsString}

theorem filesOf_insertParts_ne_nil {file : FileEntry} {done : List JsString}
    (h : filesOf level ≠ [] ∨ Fits parts level) : filesOf (insertParts file done parts level) ≠ [] := by
  obtain ⟨hadd, hkeep⟩ := filesOf_insertParts file done parts level
  by_cases hfits : Fits parts level
  · intro hnil
    have hperm := hadd hfits
    rw [hnil] at hperm
    exact List.cons_ne_nil _ _ hperm.symm.eq_nil
  · rw [hkeep hfits]
    exact h.resolve_right hfits

/-- Insertion keeps the invariant, whether the path fits or not. -/
theorem LevelWf.insertParts {file : FileEntry} {done : List JsString} (h : LevelWf level) :
    LevelWf (insertParts file done parts level) := by
  induction parts generalizing done level with
  | nil => exact h
  | cons part rest ih =>
    rw [Sidebar.insertParts]
    constructor
    · exact KeyedList.nodup_map_key_upsert TreeNode.name (fun n _ hn => (name_mapChildren _ n).trans hn) rfl h.nodup
    · refine KeyedList.forall_mem_upsert h.all (fun n hn _ => ?_) ?_
      · rw [wf_iff, isDir_mapChildren, children_mapChildren]
        intro hdir
        obtain ⟨hsome, hbelow⟩ := (wf_iff n).mp (h.all n hn) hdir
        exact ⟨filesOf_insertParts_ne_nil (.inl hsome), ih hbelow⟩
      · rw [wf_iff, isDir_mapChildren, children_mapChildren]
        intro hdir
        rcases rest with _ | ⟨next, rest⟩
        · exact absurd hdir Bool.noConfusion
        · have hempty : Fits (next :: rest) [] := fun n hn => absurd hn (Option.some_ne_none n).symm
          exact ⟨filesOf_insertParts_ne_nil (.inr hempty), ih LevelWf.nil⟩

/-- A path that does not fit meets a file on its way, or ends at one or above one. -/
theorem exists_conflict (h : LevelWf level)
    (hsome : parts = [] → filesOf level ≠ []) (hbad : ¬ Fits parts level) :
    ∃ f ∈ filesOf level, f.1 <+: parts ∨ parts <+: f.1 := by
  induction parts generalizing level with
  | nil =>
    obtain ⟨f, hf⟩ := List.exists_mem_of_ne_nil _ (hsome rfl)
    exact ⟨f, hf, .inr List.nil_prefix⟩
  | cons part rest ih =>
    rw [Fits] at hbad
    push Not at hbad
    obtain ⟨n, hfind, hn⟩ := hbad
    have hmem : n ∈ level := List.mem_of_find?_eq_some hfind
    have hname : n.name = part := by simpa using List.find?_some hfind
    cases hdir : n.isDir with
    | true =>
      obtain ⟨hfiles, hbelow⟩ := (wf_iff n).mp (h.all n hmem) hdir
      obtain ⟨⟨q, x⟩, hq, hpre⟩ := ih hbelow (fun _ => hfiles) (hn hdir)
      refine ⟨(part :: q, x), mem_filesOf.mpr ⟨n, hmem, mem_files.mpr ⟨q, by rw [hname], .inl ⟨hdir, hq⟩⟩⟩, ?_⟩
      rw [List.cons_prefix_cons, List.cons_prefix_cons]
      exact hpre.imp (fun h => ⟨rfl, h⟩) fun h => ⟨rfl, h⟩
    | false =>
      refine ⟨([part], n.file), mem_filesOf.mpr ⟨n, hmem, mem_files.mpr ⟨[], by rw [hname], .inr ⟨hdir, rfl, rfl⟩⟩⟩, ?_⟩
      exact .inl (List.cons_prefix_cons.mpr ⟨rfl, List.nil_prefix⟩)

/-- No file is below another one. -/
theorem eq_nil_of_append_mem {p q : List JsString} {x y : Option FileEntry} (h : LevelWf level)
    (hp : (p, x) ∈ filesOf level) (hq : (p ++ q, y) ∈ filesOf level) : q = [] := by
  induction p generalizing level with
  | nil => exact absurd rfl (ne_nil_of_mem_filesOf hp)
  | cons part p ih =>
    obtain ⟨n, hn, hpn⟩ := mem_filesOf.mp hp
    obtain ⟨m, hm, hqm⟩ := mem_filesOf.mp hq
    obtain ⟨p', heqp, hpn⟩ := mem_files.mp hpn
    obtain ⟨q', heqq, hqm⟩ := mem_files.mp hqm
    obtain ⟨hnamen, rfl⟩ := List.cons.inj heqp
    obtain ⟨hnamem, rfl⟩ := List.cons.inj heqq
    have hnm : n = m := List.inj_on_of_nodup_map h.nodup hn hm (hnamen.symm.trans hnamem)
    subst hnm
    rcases hpn with ⟨hdir, hpn⟩ | ⟨hfile, rfl, -⟩
    · rcases hqm with ⟨-, hqm⟩ | ⟨hfile, -, -⟩
      · exact ih ((wf_iff n).mp (h.all n hn) hdir).2 hpn hqm
      · rw [hdir] at hfile
        exact absurd hfile Bool.noConfusion
    · rcases hqm with ⟨hdir, -⟩ | ⟨-, hnil, -⟩
      · rw [hfile] at hdir
        exact absurd hdir Bool.noConfusion
      · exact hnil

/-! ## The paths of the entries -/

variable (name : JsString)

theorem joinPath_cons {rest : List JsString} (hne : rest ≠ []) :
    joinPath (name :: rest) = name ++ slash :: joinPath rest := by
  rw [joinPath, List.intercalate_cons_of_ne_nil hne, List.append_assoc, List.singleton_append, joinPath]

theorem joinPath_singleton : joinPath [name] = name :=
  List.intercalate_singleton

theorem joinPath_append (p : List JsString) {q : List JsString} (hp : p ≠ []) (hq : q ≠ []) :
    joinPath (p ++ q) = joinPath p ++ slash :: joinPath q := by
  induction p with
  | nil => exact absurd rfl hp
  | cons name p ih =>
    rcases p with _ | ⟨next, p⟩
    · rw [List.singleton_append, joinPath_cons name hq, joinPath_singleton]
    · have happend : next :: p ++ q ≠ [] := List.cons_ne_nil _ _
      rw [List.cons_append, joinPath_cons name happend, ih (List.cons_ne_nil _ _),
        joinPath_cons name (List.cons_ne_nil _ _), List.append_assoc, List.cons_append]

variable (path : JsString)

theorem joinPath_splitPath : joinPath (splitPath path) = path :=
  List.intercalate_splitOn slash

theorem splitPath_ne_nil : splitPath path ≠ [] :=
  List.splitOn_ne_nil slash path

theorem splitPath_append (a b : JsString) : splitPath (a ++ slash :: b) = splitPath a ++ splitPath b :=
  List.splitOn_append_cons_self a b

/-- A path is a directory of another one if its parts come first. -/
theorem splitPath_prefix_iff (a b : JsString) :
    splitPath a <+: splitPath b ↔ a = b ∨ a ++ [slash] <+: b := by
  constructor
  · rintro ⟨q, hq⟩
    by_cases hnil : q = []
    · rw [hnil, List.append_nil] at hq
      exact .inl (by rw [← joinPath_splitPath a, hq, joinPath_splitPath])
    · refine .inr ⟨joinPath q, ?_⟩
      rw [List.append_assoc, List.singleton_append, ← joinPath_splitPath b, ← hq,
        joinPath_append _ (splitPath_ne_nil a) hnil, joinPath_splitPath]
  · rintro (rfl | ⟨c, rfl⟩)
    · exact List.prefix_rfl
    · rw [List.append_assoc, List.singleton_append, splitPath_append]
      exact List.prefix_append _ _

/-- No path of an entry is a directory of another one. -/
def NoFileAsDir (entries : List FileEntry) : Prop :=
  ∀ e ∈ entries, ∀ e' ∈ entries, ¬ e.path ++ [slash] <+: e'.path

/-! ## All entries -/

theorem levelWf_foldl (entries : List FileEntry) : LevelWf (entries.foldl insertFile []) := by
  induction entries using List.reverseRec with
  | nil => exact LevelWf.nil
  | append_singleton entries e ih =>
    rw [List.foldl_append]
    exact ih.insertParts

variable {entries : List FileEntry}

/-- Each file of the tree is an entry at its path. -/
theorem mem_filesOf_foldl {f : List JsString × Option FileEntry}
    (hf : f ∈ filesOf (entries.foldl insertFile [])) : ∃ e ∈ entries, f = (splitPath e.path, some e) := by
  induction entries using List.reverseRec with
  | nil => exact absurd hf List.not_mem_nil
  | append_singleton entries e ih =>
    rw [List.foldl_append] at hf
    obtain ⟨hadd, hkeep⟩ := filesOf_insertParts e [] (splitPath e.path) (entries.foldl insertFile [])
    by_cases hfits : Fits (splitPath e.path) (entries.foldl insertFile [])
    · rcases List.mem_cons.mp ((hadd hfits).mem_iff.mp hf) with rfl | hold
      · exact ⟨e, List.mem_append_right _ (List.mem_singleton_self e), rfl⟩
      · obtain ⟨e', he', heq⟩ := ih hold
        exact ⟨e', List.mem_append_left _ he', heq⟩
    · obtain ⟨e', he', heq⟩ := ih (hkeep hfits ▸ hf)
      exact ⟨e', List.mem_append_left _ he', heq⟩

/-- The tree has all entries where no path is in the way of another one. -/
theorem filesOf_foldl_perm (hdistinct : (entries.map FileEntry.path).Nodup) (hclear : NoFileAsDir entries) :
    (filesOf (entries.foldl insertFile [])).Perm (entries.map fun e => (splitPath e.path, some e)) := by
  induction entries using List.reverseRec with
  | nil => exact .refl _
  | append_singleton entries e ih =>
    rw [List.map_append, List.map_singleton, List.nodup_append] at hdistinct
    have hlast : e ∈ entries ++ [e] := List.mem_append_right _ (List.mem_singleton_self e)
    have hperm := ih hdistinct.1 fun a ha b hb =>
      hclear a (List.mem_append_left _ ha) b (List.mem_append_left _ hb)
    have hfits : Fits (splitPath e.path) (entries.foldl insertFile []) := by
      by_contra hbad
      obtain ⟨f, hf, hpre⟩ := exists_conflict (levelWf_foldl entries)
        (fun hnil => absurd hnil (splitPath_ne_nil e.path)) hbad
      obtain ⟨e', he', rfl⟩ := mem_filesOf_foldl hf
      have hold : e' ∈ entries ++ [e] := List.mem_append_left _ he'
      have hne : e'.path ≠ e.path :=
        hdistinct.2.2 _ (List.mem_map_of_mem he') _ (List.mem_singleton_self e.path)
      rcases hpre with hpre | hpre
      · exact ((splitPath_prefix_iff _ _).mp hpre).elim hne (hclear e' hold e hlast)
      · exact ((splitPath_prefix_iff _ _).mp hpre).elim hne.symm (hclear e hlast e' hold)
    rw [List.foldl_append, List.map_append]
    refine ((filesOf_insertParts e [] (splitPath e.path) (entries.foldl insertFile [])).1 hfits).trans ?_
    exact (hperm.cons _).trans (List.perm_append_singleton _ _).symm

/-- A path in the way of another one: the tree does not have both. -/
theorem noFileAsDir_of_mem
    (h : ∀ e ∈ entries, (e.path, some e) ∈ (filesOf (entries.foldl insertFile [])).map joined) :
    NoFileAsDir entries := by
  have hat (e : FileEntry) (he : e ∈ entries) :
      (splitPath e.path, some e) ∈ filesOf (entries.foldl insertFile []) := by
    obtain ⟨f, hf, heq⟩ := List.mem_map.mp (h e he)
    obtain ⟨e', -, rfl⟩ := mem_filesOf_foldl hf
    have hsame : e' = e := Option.some.inj (Prod.mk.inj heq).2
    rwa [← hsame]
  rintro e he e' he' ⟨c, hc⟩
  have hpath : splitPath e'.path = splitPath e.path ++ splitPath c := by
    rw [← hc, List.append_assoc, List.singleton_append, splitPath_append]
  have hbelow := hat e' he'
  rw [hpath] at hbelow
  exact splitPath_ne_nil c (eq_nil_of_append_mem (levelWf_foldl entries) (hat e he) hbelow)

/-! ## Sorting -/

theorem sortNode_eq (localeCompare : JsString → JsString → ℤ) (n : TreeNode) :
    sortNode localeCompare n = n.mapChildren (sortTree localeCompare) := by
  cases n
  rw [sortNode]
  rfl

/-- A sorted tree has the same files. -/
theorem filesOf_sortTree (localeCompare : JsString → JsString → ℤ) (nodes : List TreeNode) :
    (filesOf (sortTree localeCompare nodes)).Perm (filesOf nodes) := by
  have hsort (nodes : List TreeNode) :
      (filesOf (sortTree localeCompare nodes)).Perm (filesOf (sortNodes localeCompare nodes)) := by
    rw [filesOf_eq_flatMap, filesOf_eq_flatMap]
    exact (List.mergeSort_perm _ _).flatMap_right _
  suffices hnodes : (filesOf (sortNodes localeCompare nodes)).Perm (filesOf nodes) from (hsort nodes).trans hnodes
  induction nodes using TreeNode.forest_induction with
  | nil => exact .refl _
  | node name path isDir children file rest hchildren hrest =>
    rw [sortNodes, filesOf, filesOf, sortNode_eq]
    refine List.Perm.append ?_ hrest
    cases isDir with
    | true =>
      rw [files_mapChildren_of_dir _ rfl, files_of_dir rfl]
      exact ((hsort children).trans hchildren).map _
    | false => rw [files_mapChildren_of_file _ rfl]

/-! ## Compacting -/

theorem isChain_iff (isDir : Bool) (children : List TreeNode) :
    isChain isDir children = true ↔ isDir = true ∧ ∃ child, children = [child] ∧ child.isDir = true := by
  rw [isChain, Bool.and_eq_true, Bool.and_eq_true, and_assoc, beq_iff_eq, List.length_eq_one_iff]
  refine and_congr_right fun _ => ⟨?_, ?_⟩
  · rintro ⟨⟨child, rfl⟩, hchild⟩
    exact ⟨child, rfl, hchild⟩
  · rintro ⟨child, rfl, hchild⟩
    exact ⟨⟨child, rfl⟩, hchild⟩

/-- The two cases of a node: it takes in the only directory below it, or keeps its place. -/
theorem compactNode_chain (child : TreeNode) (file : Option FileEntry) (hchild : child.isDir = true) :
    compactNode (.node name path true [child] file) =
      .node (name ++ slash :: (compactNode child).name) (compactNode child).path (compactNode child).isDir
        (compactNode child).children (compactNode child).file := by
  rw [compactNode, (isChain_iff _ _).mpr ⟨rfl, child, rfl, hchild⟩, compactTree]
  cases compactNode child
  rfl

theorem compactNode_keep {name path : JsString} {isDir : Bool} {children : List TreeNode} {file : Option FileEntry}
    (h : isChain isDir children = false) :
    compactNode (.node name path isDir children file) =
      .node name path isDir (if isDir then compactTree children else []) file := by
  rw [compactNode, h]

theorem isDir_compactNode (n : TreeNode) : (compactNode n).isDir = n.isDir := by
  suffices hall : ∀ m ∈ [n], (compactNode m).isDir = m.isDir from hall n (List.mem_singleton_self n)
  generalize [n] = nodes
  induction nodes using TreeNode.forest_induction with
  | nil => exact List.forall_mem_nil _
  | node name path isDir children file rest hchildren hrest =>
    refine List.forall_mem_cons.mpr ⟨?_, hrest⟩
    cases hchain : isChain isDir children with
    | true =>
      obtain ⟨rfl, child, rfl, hchild⟩ := (isChain_iff _ _).mp hchain
      rw [compactNode_chain name path child file hchild]
      exact (hchildren child (List.mem_singleton_self child)).trans hchild
    | false => rw [compactNode_keep hchain]; rfl

theorem compact_iff (n : TreeNode) : n.Compact ↔ isChain n.isDir n.children = false ∧ AllCompact n.children := by
  obtain ⟨name, path, isDir, children, file⟩ := n
  rw [TreeNode.Compact]
  rfl

/-- No chain is left. -/
theorem allCompact_compactTree : AllCompact (compactTree nodes) := by
  induction nodes using TreeNode.forest_induction with
  | nil => trivial
  | node name path isDir children file rest hchildren hrest =>
    rw [compactTree]
    refine ⟨?_, hrest⟩
    cases hchain : isChain isDir children with
    | true =>
      obtain ⟨rfl, child, rfl, hchild⟩ := (isChain_iff _ _).mp hchain
      rw [compactNode_chain name path child file hchild, compact_iff]
      exact (compact_iff (compactNode child)).mp hchildren.1
    | false =>
      rw [compactNode_keep hchain, compact_iff]
      cases isDir with
      | false => exact ⟨rfl, trivial⟩
      | true =>
        refine ⟨?_, hchildren⟩
        -- A single directory after compacting was one before.
        by_contra hafter
        obtain ⟨-, child, hsingle, hchild⟩ := (isChain_iff true (compactTree children)).mp
          ((Bool.not_eq_false _).mp hafter)
        rcases children with _ | ⟨c, _ | ⟨c', rest⟩⟩
        · exact absurd hsingle (List.cons_ne_nil _ _).symm
        · obtain ⟨rfl, -⟩ := List.cons.inj hsingle
          rw [isDir_compactNode] at hchild
          exact Bool.eq_false_iff.mp hchain ((isChain_iff _ _).mpr ⟨rfl, c, rfl, hchild⟩)
        · exact absurd (List.cons.inj hsingle).2 (List.cons_ne_nil _ _)

/-- A file below a directory, by their joined paths. -/
def below (dir : JsString) (f : JsString × Option FileEntry) : JsString × Option FileEntry :=
  (dir ++ slash :: f.1, f.2)

theorem below_comp_below (dir dir' : JsString) : below dir ∘ below dir' = below (dir ++ slash :: dir') := by
  funext f
  rw [Function.comp_apply, below, below, below, List.append_assoc, List.cons_append]

theorem map_joined_files (hdir : n.isDir = true) :
    n.files.map joined = ((filesOf n.children).map joined).map (below n.name) := by
  rw [files_of_dir hdir, List.map_map, List.map_map]
  refine List.map_congr_left fun f hf => ?_
  rw [Function.comp_apply, Function.comp_apply, joined, joined, below, joinPath_cons _ (ne_nil_of_mem_filesOf hf)]

/-- Compacting keeps the files and their joined paths. -/
theorem filesOf_compactTree : (filesOf (compactTree nodes)).map joined = (filesOf nodes).map joined := by
  induction nodes using TreeNode.forest_induction with
  | nil => rfl
  | node name path isDir children file rest hchildren hrest =>
    rw [compactTree, filesOf, filesOf, List.map_append, List.map_append, hrest]
    congr 1
    cases hchain : isChain isDir children with
    | true =>
      obtain ⟨rfl, child, rfl, hchild⟩ := (isChain_iff _ _).mp hchain
      have hdir : (compactNode child).isDir = true := (isDir_compactNode child).trans hchild
      rw [compactTree, compactTree, filesOf, filesOf, List.append_nil, map_joined_files hdir] at hchildren
      rw [compactNode_chain name path child file hchild]
      generalize compactNode child = c at hdir hchildren ⊢
      obtain ⟨childName, childPath, childIsDir, childChildren, childFile⟩ := c
      obtain rfl : childIsDir = true := hdir
      rw [map_joined_files rfl, map_joined_files rfl]
      show ((filesOf childChildren).map joined).map (below (name ++ slash :: childName)) =
        ((filesOf [child]).map joined).map (below name)
      rw [← hchildren, ← below_comp_below, ← List.map_map]
      rfl
    | false =>
      rw [compactNode_keep hchain]
      cases isDir with
      | true =>
        rw [map_joined_files rfl, map_joined_files rfl]
        exact congrArg _ hchildren
      | false => rw [files_of_file rfl, files_of_file rfl]; rfl

/-! ## The tree of the sidebar -/

section Sidebar

variable (localeCompare : JsString → JsString → ℤ) (entries : List FileEntry)

def sidebarTree : List TreeNode := compactTree (buildTree localeCompare entries)

theorem filesOf_sidebarTree :
    ((filesOf (sidebarTree localeCompare entries)).map joined).Perm
      ((filesOf (entries.foldl insertFile [])).map joined) := by
  rw [sidebarTree, filesOf_compactTree]
  exact (filesOf_sortTree localeCompare _).map joined

theorem noFileAsDir_of_complete (h : Complete entries (sidebarTree localeCompare entries)) : NoFileAsDir entries := by
  refine noFileAsDir_of_mem fun e he => ?_
  refine (filesOf_sidebarTree localeCompare entries).mem_iff.mp (h.mem_iff.mpr ?_)
  exact List.mem_map.mpr ⟨e, he, rfl⟩

/-- The tree has every entry once at its path, and no chain of directories, exactly if no path of an entry is a directory
of another one. -/
theorem sidebarTree_complete_iff (hdistinct : (entries.map FileEntry.path).Nodup) :
    (Complete entries (sidebarTree localeCompare entries) ∧ AllCompact (sidebarTree localeCompare entries)) ↔
      NoFileAsDir entries := by
  constructor
  · exact fun h => noFileAsDir_of_complete localeCompare entries h.1
  · intro hclear
    refine ⟨?_, allCompact_compactTree _⟩
    refine (filesOf_sidebarTree localeCompare entries).trans ?_
    have hmap := (filesOf_foldl_perm hdistinct hclear).map joined
    rw [List.map_map] at hmap
    have hjoined : entries.map (joined ∘ fun e => (splitPath e.path, some e)) = entries.map fun e => (e.path, some e) := by
      refine List.map_congr_left fun e _ => ?_
      rw [Function.comp_apply, joined, joinPath_splitPath]
    rwa [hjoined] at hmap

end Sidebar

def compareUnits (a b : JsString) : ℤ :=
  if a < b then -1 else if b < a then 1 else 0

def deletedFile (path : JsString) : FileEntry := ⟨path, .deleted, some 0, some 1, false, 0, []⟩

def addedFile (path : JsString) : FileEntry := ⟨path, .added, some 1, some 0, false, 0, []⟩

/-- The files `a/b` and `c`. -/
theorem sidebarTree_complete_siblings :
    let entries := [addedFile [97, 47, 98], deletedFile [99]]
    (entries.map FileEntry.path).Nodup ∧ NoFileAsDir entries ∧ Complete entries (sidebarTree compareUnits entries) ∧
      AllCompact (sidebarTree compareUnits entries) := by
  have hdistinct : ([addedFile [97, 47, 98], deletedFile [99]].map FileEntry.path).Nodup := by decide
  have hclear : NoFileAsDir [addedFile [97, 47, 98], deletedFile [99]] := by
    unfold NoFileAsDir
    decide
  exact ⟨hdistinct, hclear, (sidebarTree_complete_iff compareUnits _ hdistinct).mpr hclear⟩

/-- The file `a` becomes a directory with the file `a/b`, which the tree does not show. -/
theorem file_becomes_directory :
    let entries := [deletedFile [97], addedFile [97, 47, 98]]
    (entries.map FileEntry.path).Nodup ∧ ¬ Complete entries (sidebarTree compareUnits entries) := by
  refine ⟨by decide, fun h => ?_⟩
  exact noFileAsDir_of_complete compareUnits _ h _ List.mem_cons_self _ (List.mem_cons_of_mem _ List.mem_cons_self)
    (List.prefix_append [97, 47] [98])

end Builderbot.DiffViewer.Sidebar
