import Mathlib.Data.List.Sort
import Builderbot.Git.Types
import Builderbot.Lib.FileTree

/-!
# Scanning the sources of a project

`scanProjectSources` of `apps/penpal/internal/cache/cache.go` walks every source of a project for Markdown
files. `ResolveFileInfo` finds out for a single file which sources claim it, without a walk. Both are
modelled here over a tree of files without symbolic links, and over the answers of `git check-ignore`, which
the scan asks one long-running process and the other function one command for each directory.
-/

namespace Builderbot.Penpal

open Lib.Text

open Git (Text)

/-! ## Paths -/

/-- A relative path: so many times `..`, and then names. -/
structure RelPath where
  ups : ℕ
  down : Path
deriving DecidableEq, Repr

def RelPath.text (path : RelPath) : Text :=
  match List.replicate path.ups ['.', '.'] ++ path.down with
  | [] => ['.']
  | names => List.intercalate ['/'] names

/-- `filepath.Rel`. -/
def rel : Path → Path → RelPath
  | b :: base, t :: target => if b = t then rel base target else ⟨base.length + 1, t :: target⟩
  | base, target => ⟨base.length, target⟩

/-- `filepath.Base`. -/
def base (path : Path) : Text := path.getLast?.getD ['/']

/-- The suffix is `.md`. -/
def isMarkdown (path : Path) : Bool := ['.', 'm', 'd'].isSuffixOf (base path)

/-- `strings.HasPrefix(path, root+"/")`. The text of the root of the file system already ends with `/`, so
that nothing has this text at its start. -/
def isBelow (root path : Path) : Bool := root ≠ [] && root ≠ path && root.isPrefixOf path

/-! ## Files, sources and projects -/

structure FileData where
  content : Text
  modTime : ℤ
deriving DecidableEq, Repr

/-- `extractTitle`. -/
def extractTitle (content : Text) : Text :=
  (((lines content).take 20).findSome? fun line => (List.dropPrefix? line ['#', ' ']).map trim).getD []

inductive SourceKind where
  | thoughts
  | tree
  | files
  | unknown
deriving DecidableEq, Repr

structure SourceType where
  classifyFile : Option (Text → Text) := none
  skipDirs : List Text := []
  requireSibling : Text := []

structure FileSource where
  name : Text
  kind : SourceKind
  sourceTypeName : Text
  rootPath : Option Path
  files : List Path
  auto : Bool
deriving DecidableEq, Repr

structure Project where
  name : Text
  path : Path
  sources : List FileSource
  workspaceName : Text
deriving DecidableEq, Repr

def Project.qualifiedName (project : Project) : Text :=
  if project.workspaceName ≠ [] then project.workspaceName ++ '/' :: project.name else project.name

structure FileInfo where
  project : Text
  workspace : Text
  projectPath : Path
  source : Text
  sourceType : SourceKind
  sourceAuto : Bool
  path : RelPath
  fullPath : RelPath
  name : Text
  title : Text
  modTime : ℤ
  fileType : Text
deriving DecidableEq, Repr

/-- The name of the source that claims every file. -/
def allMarkdown : Text := "__all_markdown__".toList

def FileSource.isAllMarkdown (source : FileSource) : Bool := source.name = allMarkdown

/-- The name under which the type of the source is registered. -/
def FileSource.typeName (source : FileSource) : Text :=
  if source.sourceTypeName = [] then source.name else source.sourceTypeName

/-- The type of a file by words in its path. -/
def fileTypeByName (path : Text) : Text :=
  if contains "research".toList path then "research".toList
  else if contains "plan".toList path then "plan".toList
  else "other".toList

/-- The type of a file in a source; `none` if the file is hidden. -/
def classify (st : Option SourceType) (relToSource : RelPath) : Option Text :=
  match st.bind SourceType.classifyFile with
  | some classifyFile =>
    let fileType := classifyFile relToSource.text
    if fileType = [] then none else some fileType
  | none => some (fileTypeByName relToSource.text)

/-! ## Git -/

/-- What `git check-ignore` finds for a directory. -/
inductive IgnoreAnswer where
  | unmatched
  | ignored
  /-- The last pattern that matches starts with `!`. -/
  | negated
  /-- The command dies, as it does outside of the repository. -/
  | fatal
deriving DecidableEq, Repr

structure IgnoreRules where
  isGitRepo : Bool
  answer : Path → IgnoreAnswer

/-- `git check-ignore -q` succeeds. -/
def IgnoreRules.checkIgnore (rules : IgnoreRules) (dir : Path) : Bool :=
  rules.isGitRepo && rules.answer dir = .ignored

/-- `gitIgnoreChecker.IsIgnored`: the process prints every pattern that matches, negated ones too, and is
not asked any more once it has died. -/
def IgnoreRules.isIgnored (rules : IgnoreRules) (running : Bool) (path : Path) : Bool × Bool :=
  match running, rules.answer path with
  | false, _ => (false, false)
  | true, .unmatched => (false, true)
  | true, .ignored | true, .negated => (true, true)
  | true, .fatal => (false, false)

variable (fs : FileTree FileData) (rules : IgnoreRules) (getSourceType : Text → Option SourceType)
  (project : Project)

/-- The directory has a `.git` that is a file. -/
def hasGitFile (dir : Path) : Bool :=
  match fs.at? (dir ++ [['.', 'g', 'i', 't']]) with
  | some (.file _) => true
  | _ => false

/-- The sibling that the type of the source asks for. -/
def hasSibling (st : Option SourceType) (path : Path) : Bool :=
  match st with
  | some st => st.requireSibling = [] || (fs.at? (path.dropLast ++ [st.requireSibling])).isSome
  | none => true

/-- The names of directories that are not scanned. -/
def skipDirs (st : Option SourceType) : List Text := (st.map SourceType.skipDirs).getD []

/-! ## The scan -/

structure ScanState where
  /-- The process of `gitIgnoreChecker` is running. -/
  running : Bool
  seen : List RelPath := []
  files : List FileInfo := []

/-- The walk enters a directory. -/
def enterDir (st : Option SourceType) (root path : Path) (s : ScanState) : Bool × ScanState :=
  if path ≠ root ∧ hasGitFile fs path = true then (false, s)
  else if base path = ['.', 'g', 'i', 't'] then (false, s)
  else
    let (ignored, running) := if path ≠ root then rules.isIgnored s.running path else (false, s.running)
    (!ignored && !(skipDirs st).contains (base path), { s with running })

/-- The entry of a file in a source. -/
def treeEntry (source : FileSource) (root path : Path) (data : FileData) (fileType : Text) : FileInfo where
  project := project.qualifiedName
  workspace := project.workspaceName
  projectPath := project.path
  source := source.name
  sourceType := source.kind
  sourceAuto := source.auto
  path := rel root path
  fullPath := rel project.path path
  name := base path
  title := extractTitle data.content
  modTime := data.modTime
  fileType

/-- The walk comes to a file. -/
def visitFile (source : FileSource) (st : Option SourceType) (root path : Path) (data : FileData)
    (s : ScanState) : ScanState :=
  if !isMarkdown path || !hasSibling fs st path then s
  else if !source.isAllMarkdown && s.seen.contains (rel project.path path) then s
  else
    match classify st (rel root path) with
    | none => s
    | some fileType =>
      { s with
        seen := if source.isAllMarkdown then s.seen else rel project.path path :: s.seen
        files := s.files ++ [treeEntry project source root path data fileType] }

/-- The entry of a file that a source lists. The scan does not set a title. -/
def listedEntry (source : FileSource) (path : Path) (data : FileData) (title : Text) : FileInfo where
  project := project.qualifiedName
  workspace := project.workspaceName
  projectPath := project.path
  source := source.name
  sourceType := source.kind
  sourceAuto := source.auto
  path := ⟨0, [base path]⟩
  fullPath := rel project.path path
  name := base path
  title
  modTime := data.modTime
  fileType := fileTypeByName ((base path).map Char.toLower)

/-- A file of a source that lists its files. -/
def scanListed (source : FileSource) (s : ScanState) (path : Path) : ScanState :=
  match fs.at? path with
  | some (.file data) =>
    if !isMarkdown path || s.seen.contains (rel project.path path) then s
    else
      { s with
        seen := rel project.path path :: s.seen
        files := s.files ++ [listedEntry project source path data []] }
  | _ => s

/-- The body of the loop of `scanProjectSources`. -/
def scanSource (s : ScanState) (source : FileSource) : ScanState :=
  match source.kind with
  | .thoughts | .tree =>
    match source.rootPath with
    | none => s
    | some root =>
      let st := getSourceType source.typeName
      match fs.at? root with
      | none => s
      | some tree =>
        FileTree.walk (enterDir fs rules st root) (visitFile fs project source st root) root tree s
  | .files => source.files.foldl (scanListed fs project source) s
  | .unknown => s

/-- `sort.Slice` by modification time, newest first. -/
def sortByModTime (files : List FileInfo) : List FileInfo :=
  files.insertionSort fun f g => g.modTime ≤ f.modTime

/-- `scanProjectSources`. -/
def scanProjectSources : List FileInfo :=
  let scanned := project.sources.foldl (scanSource fs rules getSourceType project) { running := rules.isGitRepo }
  sortByModTime scanned.files

/-! ## One file -/

/-- The loop over the directories from `dir` up to a source root, which is not tested. -/
def anyAncestorBelow (test : Path → Bool) (root : Path) : ℕ → Path → Bool
  | 0, _ => false
  | fuel + 1, dir =>
    if dir ≠ root ∧ isBelow root dir = true then
      test dir || anyAncestorBelow test root fuel dir.dropLast
    else false

/-- `isUnderNestedGitRepo`. -/
def isUnderNestedGitRepo (path root : Path) : Bool :=
  anyAncestorBelow (hasGitFile fs) root path.length path.dropLast

/-- `isAncestorDirGitIgnored`. -/
def isAncestorDirGitIgnored (path root : Path) : Bool :=
  anyAncestorBelow rules.checkIgnore root path.length path.dropLast

/-- `hasSkippedDir`. -/
def hasSkippedDir (relToSource : RelPath) (st : Option SourceType) : Bool :=
  (List.replicate relToSource.ups ['.', '.'] ++ relToSource.down).dropLast.any fun name =>
    (skipDirs st).contains name

/-- The body of the loop of `ResolveFileInfo`; the flag is `typedClaimed`. -/
def resolveSource (path : Path) (data : FileData) (acc : List FileInfo × Bool) (source : FileSource) :
    List FileInfo × Bool :=
  let (results, typedClaimed) := acc
  match source.kind with
  | .thoughts | .tree =>
    match source.rootPath with
    | none => acc
    | some root =>
      let st := getSourceType source.typeName
      if !isBelow root path && path ≠ root then acc
      else if isUnderNestedGitRepo fs path root then acc
      else if isAncestorDirGitIgnored rules path root then acc
      else if !source.isAllMarkdown && typedClaimed then acc
      else if hasSkippedDir (rel root path) st then acc
      else if !hasSibling fs st path then acc
      else
        match classify st (rel root path) with
        | none => acc
        | some fileType =>
          (results ++ [treeEntry project source root path data fileType],
            if source.isAllMarkdown then typedClaimed else true)
  | .files =>
    if !source.isAllMarkdown && typedClaimed then acc
    else if !source.files.contains path then acc
    else
      (results ++ [listedEntry project source path data (extractTitle data.content)],
        if source.isAllMarkdown then typedClaimed else true)
  | .unknown => acc

/-- `ResolveFileInfo`. -/
def resolveFileInfo (path : Path) : List FileInfo :=
  match isMarkdown path, fs.at? path with
  | true, some (.file data) =>
    if ['.', '.'].isPrefixOf (rel project.path path).text then []
    else (project.sources.foldl (resolveSource fs rules getSourceType project path data) ([], false)).1
  | _, _ => []

end Builderbot.Penpal
