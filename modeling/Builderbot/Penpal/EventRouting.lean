import Builderbot.Penpal.FileEvents
import Builderbot.Penpal.ResolveAgreement

/-!
# Which project an event belongs to

`handleEvent` of `apps/penpal/internal/watcher/watcher.go` passes a change of a Markdown file on to one
project, the first in the list with a source, a list of files, a `.penpal` directory or a worktree that has the
path. A change in a workspace directory, or of a file that makes a source, starts a new discovery of the
projects instead, and `RescanWith` then scans the projects whose sources have changed.

The scans of several projects may cover one file, and `FindProjectByPath` of the cache picks the project with
the longest root above a path. The theorem says when the caches of all projects that cover the file are
updated nevertheless, and when both rules pick the same project.
-/

namespace Builderbot.Penpal

open Git (Text)

structure Worktree where
  path : Path
  isMain : Bool
deriving DecidableEq, Repr

/-- A project with its worktrees. -/
structure ListedProject extends Project where
  worktrees : List Worktree := []
deriving DecidableEq

/-- What makes a source of a type: a directory or a file in the project. -/
structure AutoDetect where
  dir : Text := []
  file : Text := []

/-- What the watcher knows when an event comes. -/
structure Watch where
  workspacePaths : List Path
  sourceTypes : List AutoDetect
  projects : List ListedProject
  /-- The files and flags of the cache. -/
  cache : Cache
  /-- The projects that `discoverFn` finds, unless it fails. -/
  discovered : Option (List Project)

def dotPenpal : Text := ['.', 'p', 'e', 'n', 'p', 'a', 'l']

/-- The tests of `findProjectForPath` for one project. -/
def ListedProject.claims (path : Path) (p : ListedProject) : Bool :=
  (p.sources.any fun source =>
    source.rootPath.any (fun root => isBelow root path) || source.files.contains path) ||
  -- the text of the root of the file system already ends with `/`
  (p.path ≠ [] && isBelow (p.path ++ [dotPenpal]) path) ||
  p.worktrees.any fun wt => !wt.isMain && isBelow wt.path path

/-- The length of a path as a text. -/
def textLength (path : Path) : ℕ := (path.map fun name => name.length + 1).sum

/-- The root of the project is the path or above it. -/
def ListedProject.isAbove (path : Path) (p : ListedProject) : Bool := isBelow p.path path || p.path = path

/-- The loop of `FindProjectByPath`. -/
def longestAbove (path : Path) : Option ListedProject → List ListedProject → Option ListedProject
  | best, [] => best
  | best, p :: projects =>
    if p.isAbove path && best.all fun b => textLength b.path < textLength p.path then
      longestAbove path (some p) projects
    else longestAbove path best projects

/-- `FindProjectByPath`. -/
def findProjectByPath (path : Path) (projects : List ListedProject) : Option ListedProject :=
  longestAbove path none projects

/-- The Markdown files in a directory. -/
def markdownFiles (path : Path) (tree : FileTree FileData) : List Path :=
  FileTree.walk (fun _ files => (true, files))
    (fun file _ files => if isMarkdown file then files ++ [file] else files) path tree []

inductive EventAction where
  /-- `rediscoverProjects` will run. -/
  | rediscover
  | ignored
  | commentsChanged (name : Text)
  /-- `debounceFileEvent` is called for each of the files. -/
  | fileEvents (name : Text) (entries : List (Path × Op))

variable {path : Path} {p : ListedProject}

namespace Watch

variable (w : Watch)

/-- `findProjectForPath`, which gives the empty text if there is none. -/
def findProjectForPath (path : Path) : Text :=
  ((w.projects.find? (ListedProject.claims path)).map fun p => p.qualifiedName).getD []

/-- `FindProject`. -/
def findProject (name : Text) : Option ListedProject := w.projects.find? fun p => p.qualifiedName = name

/-- The event makes or removes a source of the type. -/
def detects (isNewDir : Bool) (name : Text) (op : Op) (st : AutoDetect) : Bool :=
  if op &&& Op.create ≠ 0 then
    (isNewDir && st.dir ≠ [] && st.dir = name) || (!isNewDir && st.file ≠ [] && st.file = name)
  else (st.dir ≠ [] && st.dir = name) || (st.file ≠ [] && st.file = name)

/-- There is a directory at the path. -/
def isDir (disk : Disk) (path : Path) : Bool :=
  match disk.fs.at? path with
  | some (.dir _) => true
  | _ => false

/-- The event is one for the discovery of projects. -/
def intercepts (disk : Disk) (path : Path) (op : Op) : Bool :=
  w.workspacePaths.contains path.dropLast ||
    (op &&& (Op.create ||| Op.remove ||| Op.rename) ≠ 0 &&
      w.sourceTypes.any (detects (isDir disk path) (base path) op) &&
      w.projects.any fun p => path.dropLast = p.path)

/-- `handleEvent`. -/
def handleEvent (disk : Disk) (path : Path) (op : Op) : EventAction :=
  if w.intercepts disk path op then .rediscover
  else
    let name := w.findProjectForPath path
    if name = [] then .ignored
    else if path.dropLast.contains dotPenpal && ['.', 'j', 's', 'o', 'n'].isSuffixOf (base path) then
      .commentsChanged name
    else if isMarkdown path then .fileEvents name [(path, op)]
    else if op &&& (Op.create ||| Op.rename) ≠ 0 then
      -- a new directory may hold Markdown files
      match disk.fs.at? path with
      | some (.dir entries) => .fileEvents name ((markdownFiles path (.dir entries)).map fun file => (file, Op.create))
      | _ => .ignored
    else .ignored

/-- The names of the projects that `rediscoverProjects` scans. -/
def rescanned : List Text :=
  match w.discovered with
  | some projects =>
    TrackedCache.toScan { cache := w.cache.setProjects (w.projects.map ListedProject.toProject) } projects
  | none => []

/-- What the flush of the event, or the new discovery, does to the cache. -/
def commands : EventAction → List CacheCommand
  | .rediscover => w.discovered.toList.map .rescanWith
  | .fileEvents name entries =>
    match w.findProject name with
    | some p => entries.flatMap (callsFor p.toProject name)
    | none => []
  | .ignored | .commentsChanged _ => []

/-- The entries of the file in the cache of the project are updated: a flush makes the calls of the event for the project,
or the project is scanned. -/
def Updates (p : ListedProject) (path : Path) (op : Op) : EventAction → Prop
  | .rediscover => p.qualifiedName ∈ w.rescanned
  | .fileEvents name entries =>
    (path, op) ∈ entries ∧ w.findProject name = some p ∧
      callsFor p.toProject name (path, op) ⊆ w.commands (.fileEvents name entries)
  | .ignored | .commentsChanged _ => False

/-! ## Coverage and updates -/

variable (getSourceType : Text → Option SourceType)

/-- A scan of the project has the file. -/
def covers (disk : Disk) (path : Path) (p : ListedProject) : Bool :=
  (freshScan getSourceType disk p.toProject).any fun file => file.fullPath = rel p.path path

/-- A scan has the file, or had it before it was removed. -/
def Covered (before after : Disk) (path : Path) (op : Op) (p : ListedProject) : Prop :=
  covers getSourceType after path p = true ∨
    (op &&& (Op.remove ||| Op.rename) ≠ 0 ∧ covers getSourceType before path p = true)

/-- It is the only project whose scan has the file. -/
def OnlyCovered (before after : Disk) (path : Path) (op : Op) (p : ListedProject) : Prop :=
  ∀ q ∈ w.projects, Covered getSourceType before after path op q → q = p

/-- Every project whose scan has the file is updated, and both rules for paths agree on a file that only one
project has. -/
def AllUpdated (before after : Disk) (path : Path) (op : Op) : Prop :=
  ∀ p ∈ w.projects, Covered getSourceType before after path op p →
    w.Updates p path op (w.handleEvent after path op) ∧
      (w.OnlyCovered getSourceType before after path op p →
        w.findProjectForPath path =
          ((findProjectByPath path w.projects).map fun p => p.qualifiedName).getD [])

/-- The project is the first of its name, and it or another one of this name is the first that claims the
path. -/
def FirstFor (path : Path) (p : ListedProject) : Prop :=
  p.qualifiedName ≠ [] ∧ ∃ earlier later, w.projects = earlier ++ p :: later ∧
    (∀ q ∈ earlier, q.claims path = false ∧ q.qualifiedName ≠ p.qualifiedName) ∧
    (p.claims path = true ∨ ∃ between q rest, later = between ++ q :: rest ∧
      (∀ r ∈ between, r.claims path = false) ∧ q.claims path = true ∧ q.qualifiedName = p.qualifiedName)

/-- The first project that claims the path has the name. -/
def FirstClaims (path : Path) (name : Text) : Prop :=
  ∃ earlier p later, w.projects = earlier ++ p :: later ∧ (∀ q ∈ earlier, q.claims path = false) ∧
    p.claims path = true ∧ p.qualifiedName = name

/-- The project of the name has the longest root above the path, and is the first with such a root. -/
def LongestRoot (path : Path) (name : Text) : Prop :=
  ∃ earlier p later, w.projects = earlier ++ p :: later ∧ p.isAbove path = true ∧ p.qualifiedName = name ∧
    (∀ q ∈ earlier, q.isAbove path = true → textLength q.path < textLength p.path) ∧
    ∀ q ∈ later, q.isAbove path = true → textLength q.path ≤ textLength p.path

variable {w getSourceType}

/-! ## First match and longest root -/

theorem findProjectForPath_eq_iff {name : Text} (hname : name ≠ []) :
    w.findProjectForPath path = name ↔ w.FirstClaims path name := by
  rw [findProjectForPath]
  constructor
  · intro h
    rcases hfind : w.projects.find? (ListedProject.claims path) with _ | p
    · rw [hfind] at h
      exact absurd h.symm hname
    · rw [hfind] at h
      obtain ⟨hclaims, earlier, later, hprojects, hearlier⟩ := List.find?_eq_some_iff_append.mp hfind
      exact ⟨earlier, p, later, hprojects, fun q hq => by simpa using hearlier q hq, hclaims, h⟩
  · rintro ⟨earlier, p, later, hprojects, hearlier, hclaims, rfl⟩
    have hfind : w.projects.find? (ListedProject.claims path) = some p :=
      List.find?_eq_some_iff_append.mpr
        ⟨hclaims, earlier, later, hprojects, fun q hq => by simpa using hearlier q hq⟩
    rw [hfind]
    rfl

/-- The loop of `FindProjectByPath` from a project that it has found. -/
theorem longestAbove_some (path : Path) (best : ListedProject) (projects : List ListedProject) :
    (longestAbove path (some best) projects = some best ∧
      ∀ q ∈ projects, q.isAbove path = true → textLength q.path ≤ textLength best.path) ∨
    ∃ earlier p later, projects = earlier ++ p :: later ∧ longestAbove path (some best) projects = some p ∧
      p.isAbove path = true ∧ textLength best.path < textLength p.path ∧
      (∀ q ∈ earlier, q.isAbove path = true → textLength q.path < textLength p.path) ∧
      ∀ q ∈ later, q.isAbove path = true → textLength q.path ≤ textLength p.path := by
  -- on the projects that are left, for any best one so far
  induction projects generalizing best with
  | nil => exact .inl ⟨rfl, fun q hq => absurd hq List.not_mem_nil⟩
  | cons p projects ih =>
    rw [longestAbove]
    by_cases hbetter : (p.isAbove path && (some best).all fun b => textLength b.path < textLength p.path) = true
    · rw [if_pos hbetter]
      rw [Bool.and_eq_true, Option.all_some, decide_eq_true_eq] at hbetter
      obtain ⟨habove, hlonger⟩ := hbetter
      right
      rcases ih p with ⟨hstay, hlater⟩ | ⟨earlier, r, later, rfl, hr, habove', hlonger', hearlier, hlater⟩
      · exact ⟨[], p, projects, rfl, hstay, habove, hlonger, fun q hq => absurd hq List.not_mem_nil, hlater⟩
      · refine ⟨p :: earlier, r, later, rfl, hr, habove', by omega, fun q hq hq' => ?_, hlater⟩
        rcases List.mem_cons.mp hq with rfl | hq
        · exact hlonger'
        · exact hearlier q hq hq'
    -- the best one stays, so this project is no longer than it
    · rw [if_neg hbetter]
      have hshort : p.isAbove path = true → textLength p.path ≤ textLength best.path := by
        intro habove
        rw [habove, Bool.true_and, Option.all_some, decide_eq_true_eq] at hbetter
        omega
      rcases ih best with ⟨hstay, hlater⟩ | ⟨earlier, r, later, rfl, hr, habove', hlonger', hearlier, hlater⟩
      · refine .inl ⟨hstay, fun q hq hq' => ?_⟩
        rcases List.mem_cons.mp hq with rfl | hq
        · exact hshort hq'
        · exact hlater q hq hq'
      · refine .inr ⟨p :: earlier, r, later, rfl, hr, habove', hlonger', fun q hq hq' => ?_, hlater⟩
        rcases List.mem_cons.mp hq with rfl | hq
        · have hle := hshort hq'
          omega
        · exact hearlier q hq hq'

theorem longestAbove_append (path : Path) (best : Option ListedProject) (projects more : List ListedProject) :
    longestAbove path best (projects ++ more) = longestAbove path (longestAbove path best projects) more := by
  induction projects generalizing best with
  | nil => rfl
  | cons p projects ih =>
    rw [List.cons_append, longestAbove, longestAbove]
    split
    · exact ih _
    · exact ih _

/-- What `FindProjectByPath` finds. -/
theorem findProjectByPath_eq_some {projects : List ListedProject}
    (h : findProjectByPath path projects = some p) :
    ∃ earlier later, projects = earlier ++ p :: later ∧ p.isAbove path = true ∧
      (∀ q ∈ earlier, q.isAbove path = true → textLength q.path < textLength p.path) ∧
      ∀ q ∈ later, q.isAbove path = true → textLength q.path ≤ textLength p.path := by
  induction projects with
  | nil => cases h
  | cons r projects ih =>
    rw [findProjectByPath, longestAbove] at h
    by_cases habove : r.isAbove path = true
    · rw [habove, Option.all_none, Bool.true_and, if_pos rfl] at h
      rcases longestAbove_some path r projects with
        ⟨hstay, hlater⟩ | ⟨earlier, r', later, rfl, hr', habove', hlonger, hearlier, hlater⟩
      · obtain rfl := Option.some.inj (hstay.symm.trans h)
        exact ⟨[], projects, rfl, habove, fun q hq => absurd hq List.not_mem_nil, hlater⟩
      · obtain rfl := Option.some.inj (hr'.symm.trans h)
        refine ⟨r :: earlier, later, rfl, habove', fun q hq hq' => ?_, hlater⟩
        rcases List.mem_cons.mp hq with rfl | hq
        · exact hlonger
        · exact hearlier q hq hq'
    · rw [Bool.not_eq_true] at habove
      rw [habove, Bool.false_and, if_neg Bool.false_ne_true] at h
      obtain ⟨earlier, later, rfl, habove', hearlier, hlater⟩ := ih h
      refine ⟨r :: earlier, later, rfl, habove', fun q hq hq' => ?_, hlater⟩
      rcases List.mem_cons.mp hq with rfl | hq
      · rw [habove] at hq'
        cases hq'
      · exact hearlier q hq hq'

/-- A project that has the longest root is found. -/
theorem findProjectByPath_of_longest {earlier later : List ListedProject} (habove : p.isAbove path = true)
    (hearlier : ∀ q ∈ earlier, q.isAbove path = true → textLength q.path < textLength p.path)
    (hlater : ∀ q ∈ later, q.isAbove path = true → textLength q.path ≤ textLength p.path) :
    findProjectByPath path (earlier ++ p :: later) = some p := by
  have hbetter : ((longestAbove path none earlier).all fun b => textLength b.path < textLength p.path) = true := by
    rcases hbest : longestAbove path none earlier with _ | b
    · rfl
    · obtain ⟨before, behind, hsplit, habove', -⟩ := findProjectByPath_eq_some hbest
      have hmem : b ∈ earlier := hsplit ▸ List.mem_append_right _ List.mem_cons_self
      exact decide_eq_true (hearlier b hmem habove')
  rw [findProjectByPath, longestAbove_append, longestAbove, habove, hbetter, Bool.and_self, if_pos rfl]
  rcases longestAbove_some path p later with ⟨hstay, -⟩ | ⟨before, q, behind, rfl, -, habove', hlonger, -⟩
  · exact hstay
  · have hle := hlater q (List.mem_append_right _ List.mem_cons_self) habove'
    omega

theorem findProjectByPath_eq_iff {name : Text} (hname : name ≠ []) :
    ((findProjectByPath path w.projects).map fun p => p.qualifiedName).getD [] = name ↔
      w.LongestRoot path name := by
  constructor
  · intro h
    rcases hfind : findProjectByPath path w.projects with _ | p
    · rw [hfind] at h
      exact absurd h.symm hname
    · rw [hfind] at h
      obtain ⟨earlier, later, hprojects, habove, hearlier, hlater⟩ := findProjectByPath_eq_some hfind
      exact ⟨earlier, p, later, hprojects, habove, h, hearlier, hlater⟩
  · rintro ⟨earlier, p, later, hprojects, habove, rfl, hearlier, hlater⟩
    rw [hprojects, findProjectByPath_of_longest habove hearlier hlater]
    rfl

/-- Both rules give the same name. -/
theorem same_pick_iff :
    w.findProjectForPath path = ((findProjectByPath path w.projects).map fun p => p.qualifiedName).getD [] ↔
      ∀ name, name ≠ [] → (w.FirstClaims path name ↔ w.LongestRoot path name) := by
  constructor
  · intro h name hname
    rw [← findProjectForPath_eq_iff hname, ← findProjectByPath_eq_iff hname, h]
  · intro h
    have hboth : ∀ name, name ≠ [] → (w.findProjectForPath path = name ↔
        ((findProjectByPath path w.projects).map fun p => p.qualifiedName).getD [] = name) := by
      intro name hname
      rw [findProjectForPath_eq_iff hname, findProjectByPath_eq_iff hname, h name hname]
    by_cases hnone : w.findProjectForPath path = []
    · by_contra hne
      have hother : ((findProjectByPath path w.projects).map fun p => p.qualifiedName).getD [] ≠ [] :=
        fun heq => hne (hnone.trans heq.symm)
      exact hother ((hboth _ hother).mpr rfl ▸ hnone)
    · exact ((hboth _ hnone).mp rfl).symm

/-! ## Events of Markdown files -/

theorem handleEvent_of_isMarkdown {disk : Disk} {op : Op} (hmd : isMarkdown path = true)
    (hpass : w.intercepts disk path op = false) :
    w.handleEvent disk path op =
      if w.findProjectForPath path = [] then .ignored
      else .fileEvents (w.findProjectForPath path) [(path, op)] := by
  have hjson : ['.', 'j', 's', 'o', 'n'].isSuffixOf (base path) = false := by
    by_contra hsuffix
    rw [Bool.not_eq_false, List.isSuffixOf_iff_suffix] at hsuffix
    rw [isMarkdown, List.isSuffixOf_iff_suffix] at hmd
    obtain ⟨x, hx⟩ := hmd
    obtain ⟨y, hy⟩ := hsuffix
    -- the texts end with different letters
    have hlast := congrArg List.getLast? (hx.trans hy.symm)
    simp at hlast
  simp only [handleEvent, hpass, hjson, hmd, Bool.and_false, Bool.false_eq_true, if_false, if_true]

/-- The flush makes the calls of an event for the project that it finds by name. -/
theorem callsFor_subset_commands {op : Op} {name : Text} {entries : List (Path × Op)} (hentry : (path, op) ∈ entries)
    (hfind : w.findProject name = some p) : callsFor p.toProject name (path, op) ⊆ w.commands (.fileEvents name entries) := by
  intro call hcall
  rw [commands, hfind]
  exact List.mem_flatMap.mpr ⟨(path, op), hentry, hcall⟩

theorem FirstFor.findProject (h : w.FirstFor path p) : w.findProject p.qualifiedName = some p := by
  obtain ⟨-, earlier, later, hprojects, hearlier, -⟩ := h
  refine List.find?_eq_some_iff_append.mpr ⟨decide_eq_true rfl, earlier, later, hprojects, fun q hq => ?_⟩
  simpa using (hearlier q hq).2

theorem FirstFor.firstClaims (h : w.FirstFor path p) : w.FirstClaims path p.qualifiedName := by
  obtain ⟨-, earlier, later, hprojects, hearlier, hclaims | ⟨between, q, rest, rfl, hbetween, hq, hname⟩⟩ := h
  · exact ⟨earlier, p, later, hprojects, fun q hq => (hearlier q hq).1, hclaims, rfl⟩
  · by_cases hclaims : p.claims path = true
    · exact ⟨earlier, p, _, hprojects, fun q hq => (hearlier q hq).1, hclaims, rfl⟩
    · refine ⟨earlier ++ p :: between, q, rest, by rw [hprojects, List.append_assoc]; rfl, fun r hr => ?_, hq,
        hname⟩
      rw [List.mem_append, List.mem_cons] at hr
      rcases hr with hr | rfl | hr
      · exact (hearlier r hr).1
      · exact Bool.not_eq_true _ ▸ hclaims
      · exact hbetween r hr

/-- The project that the flush finds by the name of the first one that claims the path. -/
theorem firstFor_of_findProject (hname : w.findProjectForPath path ≠ [])
    (h : w.findProject (w.findProjectForPath path) = some p) : w.FirstFor path p := by
  obtain ⟨earlier', q, later', hprojects', hearlier', hq, hqname⟩ := (findProjectForPath_eq_iff hname).mp rfl
  obtain ⟨hpname, earlier, later, hprojects, hearlier⟩ := List.find?_eq_some_iff_append.mp h
  have hpname' : p.qualifiedName = w.findProjectForPath path := of_decide_eq_true hpname
  have hnames : ∀ r ∈ earlier, r.qualifiedName ≠ p.qualifiedName := by
    intro r hr
    rw [hpname']
    simpa using hearlier r hr
  refine ⟨hpname' ▸ hname, earlier, later, hprojects, ?_⟩
  rcases List.append_eq_append_iff.mp (hprojects.symm.trans hprojects') with
    ⟨between, rfl, hrest⟩ | ⟨between, rfl, hrest⟩
  · -- the one that claims the path is not before `p`
    refine ⟨fun r hr => ⟨hearlier' r (List.mem_append_left _ hr), hnames r hr⟩, ?_⟩
    rcases between with _ | ⟨first, between⟩
    · obtain ⟨rfl, rfl⟩ := List.cons.inj hrest
      exact .inl hq
    · obtain ⟨rfl, rfl⟩ := List.cons.inj hrest
      refine .inr ⟨between, q, later', rfl, fun r hr => ?_, hq, hqname.trans hpname'.symm⟩
      exact hearlier' r (List.mem_append_right _ (List.mem_cons_of_mem _ hr))
  · rcases between with _ | ⟨first, between⟩
    · obtain ⟨rfl, rfl⟩ := List.cons.inj hrest
      rw [List.append_nil] at hnames ⊢
      exact ⟨fun r hr => ⟨hearlier' r hr, hnames r hr⟩, .inl hq⟩
    · obtain ⟨rfl, -⟩ := List.cons.inj hrest
      exact absurd (hqname.trans hpname'.symm) (hnames q (List.mem_append_right _ List.mem_cons_self))

/-- A project is updated by the flush if it is the first for the path. -/
theorem updates_iff_firstFor {disk : Disk} {op : Op} (hmd : isMarkdown path = true)
    (hpass : w.intercepts disk path op = false) (p : ListedProject) :
    w.Updates p path op (w.handleEvent disk path op) ↔ w.FirstFor path p := by
  rw [handleEvent_of_isMarkdown hmd hpass]
  constructor
  · intro h
    split at h
    · exact h.elim
    · rename_i hname
      exact firstFor_of_findProject hname h.2.1
  · intro h
    have hpick := (findProjectForPath_eq_iff h.1).mpr h.firstClaims
    rw [hpick, if_neg h.1]
    have hentry : (path, op) ∈ [(path, op)] := List.mem_singleton.mpr rfl
    exact ⟨hentry, h.findProject, callsFor_subset_commands hentry h.findProject⟩

/-- The caches of all projects that cover a file are updated if and only if each of them is scanned by the new
discovery that the event starts, or, if it starts none, is the first in the list for the path, and both rules
pick the same name for a file that only one project has. -/
theorem allUpdated_iff (w : Watch) (getSourceType : Text → Option SourceType) (before after : Disk)
    (path : Path) (op : Op) (hmd : isMarkdown path = true) :
    w.AllUpdated getSourceType before after path op ↔
      ∀ p ∈ w.projects, Covered getSourceType before after path op p →
        (if w.intercepts after path op then p.qualifiedName ∈ w.rescanned else w.FirstFor path p) ∧
          (w.OnlyCovered getSourceType before after path op p →
            ∀ name, name ≠ [] → (w.FirstClaims path name ↔ w.LongestRoot path name)) := by
  rw [AllUpdated]
  refine forall_congr' fun p => forall_congr' fun _ => forall_congr' fun _ => ?_
  rw [same_pick_iff]
  refine and_congr_left fun _ => ?_
  cases hpass : w.intercepts after path op with
  | true =>
    rw [if_pos rfl, handleEvent, hpass, if_pos rfl]
    rfl
  | false =>
    rw [if_neg Bool.false_ne_true]
    exact updates_iff_firstFor hmd hpass p

instance (p : ListedProject) (path : Path) (op : Op) : ∀ action, Decidable (w.Updates p path op action)
  | .rediscover => decidable_of_iff (w.rescanned.contains p.qualifiedName = true) List.contains_iff_mem
  | .fileEvents name entries =>
    decidable_of_iff (entries.contains (path, op) = true ∧ w.findProject name = some p)
      ⟨fun h => ⟨List.contains_iff_mem.mp h.1, h.2, callsFor_subset_commands (List.contains_iff_mem.mp h.1) h.2⟩,
        fun h => ⟨List.contains_iff_mem.mpr h.1, h.2.1⟩⟩
  | .ignored | .commentsChanged _ => .isFalse id

/-- Two directories `p` and `q` in the directory `w`, and a file in `p`. -/
def nestedDisk : Disk where
  fs := .dir (.cons ['w'] (.dir
    (.cons ['p'] (.dir (.cons ['a', '.', 'm', 'd'] (.file ⟨[], 1⟩) .nil))
    (.cons ['q'] (.dir .nil) .nil))) .nil)
  rules := ⟨false, fun _ => .unmatched⟩

def nestedFile : Path := [['w'], ['p'], ['a', '.', 'm', 'd']]

/-- A project with its own directory as its only source. -/
def treeProject (name : Text) (path : Path) (worktrees : List Worktree) : ListedProject where
  name
  path
  sources := [⟨['d'], .tree, ['d'], some path, [], false⟩]
  workspaceName := []
  worktrees

def nestedWatch (projects : List ListedProject) : Watch where
  workspacePaths := []
  sourceTypes := []
  projects
  cache := {}
  discovered := none

/-- A project around another one, with a source beside it. -/
def aroundProject : ListedProject := { treeProject ['w'] [['w'], ['q']] [] with path := [['w']] }

/-- The project around another one does not take its events if no source of it has the file. -/
theorem allUpdated_iff_nested :
    (nestedWatch [aroundProject, treeProject ['p'] [['w'], ['p']] []]).AllUpdated (fun _ => none) nestedDisk nestedDisk
        nestedFile Op.write ∧
      Covered (fun _ => none) nestedDisk nestedDisk nestedFile Op.write (treeProject ['p'] [['w'], ['p']] []) := by
  refine ⟨?_, .inl (by decide)⟩
  rw [allUpdated_iff _ _ _ _ _ _ (by decide)]
  intro p hp hcovered
  rcases List.mem_pair.mp hp with rfl | rfl
  · rcases hcovered with hafter | ⟨-, hbefore⟩
    · exact absurd hafter (by decide)
    · exact absurd hbefore (by decide)
  · refine ⟨?_, fun _ name hname => ?_⟩
    · have hpass : (nestedWatch [aroundProject, treeProject ['p'] [['w'], ['p']] []]).intercepts nestedDisk nestedFile
          Op.write = false := by decide
      rw [hpass, if_neg Bool.false_ne_true]
      refine ⟨by decide, [aroundProject], [], rfl, fun q hq => ?_, .inl (by decide)⟩
      rw [List.mem_singleton.mp hq]
      decide
    · rw [← findProjectForPath_eq_iff hname, ← findProjectByPath_eq_iff hname]
      rfl

/-- A project that contains another one takes its events, and so does one with a worktree in the place of the
other. In the second case no scan but that of the other project has the file. -/
theorem nested_not_updated :
    (¬ (nestedWatch [treeProject ['w'] [['w']] [], treeProject ['p'] [['w'], ['p']] []]).AllUpdated (fun _ => none)
        nestedDisk nestedDisk nestedFile Op.write) ∧
    let w := nestedWatch [treeProject ['q'] [['w'], ['q']] [⟨[['w'], ['p']], false⟩],
      treeProject ['p'] [['w'], ['p']] []]
    ¬ w.AllUpdated (fun _ => none) nestedDisk nestedDisk nestedFile Op.write ∧
      (w.projects.filter (covers (fun _ => none) nestedDisk nestedFile)).map (fun p => p.name) = [['p']] ∧
      w.findProjectForPath nestedFile = ['q'] ∧
      (findProjectByPath nestedFile w.projects).map (fun p => p.name) = some ['p'] := by
  refine ⟨fun h => ?_, fun h => ?_, by decide, by decide, by decide⟩
  · have hupdates := (h (treeProject ['p'] [['w'], ['p']] []) (List.mem_cons_of_mem _ List.mem_cons_self)
      (.inl (by decide))).1
    revert hupdates
    decide
  · have hupdates := (h (treeProject ['p'] [['w'], ['p']] []) (List.mem_cons_of_mem _ List.mem_cons_self)
      (.inl (by decide))).1
    revert hupdates
    decide

end Watch

end Builderbot.Penpal
