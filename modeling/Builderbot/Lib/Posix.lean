import Builderbot.Lib.FileTree
import Mathlib.Data.List.Induction

/-!
# File systems with links

A file system gives the entry at each path, where a path is the list of names from the root and leads through directories
only. A reference is what a program passes to the system: names from a directory on, with links, `.` and `..` in it, and
perhaps a slash at its end. `walk` resolves names, and `stat` and `lstat` find the place of a reference, the latter without
following a link at its end.

The calls that make, write and remove entries give file systems again. `filePlace` and `Clears` say where the ones that
remove do something, and `trailOf` what a reference depends on: as long as the entries on its trail stay, it leads to the
same place (`stat_of_trail`).
-/

namespace Builderbot.Lib.Posix

/-- What is at a place. -/
inductive Entry (δ : Type) where
  | dir
  | link (target : List Char)
  | file (data : δ)
deriving DecidableEq

/-- The entries at the paths, each in a directory. -/
structure FileSystem (δ : Type) where
  entry : Path → Option (Entry δ)
  root : entry [] = some .dir
  parent : ∀ p name, (entry (p ++ [name])).isSome = true → entry p = some .dir

/-- A root with nothing in it. -/
def FileSystem.empty (δ : Type) : FileSystem δ where
  entry p := if p = [] then some .dir else none
  root := if_pos rfl
  parent p name h := by
    rw [if_neg (by simp)] at h
    cases h

/-- Names to follow from a directory on; with a slash at the end, a directory is meant. -/
structure Ref where
  start : Path
  names : List (List Char)
  slash : Bool
deriving DecidableEq

def dot : List Char := ['.']

def dotDot : List Char := ['.', '.']

/-- The names between the slashes of a text. -/
def namesOf (text : List Char) : List (List Char) := (text.splitOn '/').filter (· ≠ [])

def isAbsolute (text : List Char) : Bool := text.head? == some '/'

/-- `Path::join`. -/
def Ref.join (r : Ref) (text : List Char) : Ref :=
  if isAbsolute text then ⟨[], namesOf text, text.getLast? == some '/'⟩
  else ⟨r.start, r.names ++ namesOf text, text.isEmpty || text.getLast? == some '/'⟩

/-- `Path::parent`. -/
def Ref.parent (r : Ref) : Ref :=
  ⟨r.start, ((r.names.reverse.dropWhile (· = dot)).tail.dropWhile (· = dot)).reverse, false⟩

/-- The name at the end of a reference, if what has the name is meant and not a directory that is reached by it. -/
def Ref.lastName? (r : Ref) : Option (List Char) :=
  if r.slash then none else r.names.getLast?.filter fun name => name ≠ dot && name ≠ dotDot

/-- The reference to an absolute path. -/
def Ref.ofPath (p : Path) : Ref := ⟨[], p, false⟩

/-- The text of a path. -/
def textOf (p : Path) : List Char := if p = [] then ['/'] else p.flatMap fun name => '/' :: name

variable {p : Path} {names : List (List Char)} {r : Ref} {q cur : Path}

namespace FileSystem

variable {δ : Type} (fs : FileSystem δ)

def isDir (p : Path) : Bool :=
  match fs.entry p with
  | some .dir => true
  | _ => false

/-! ## Finding a place -/

/-- The place of names from a directory on, when the names behind a link are followed by `follow`. For a `new` entry,
there may be nothing at the end. -/
def walkWith (new : Bool) (follow : List (List Char) → Path → Option Path) : List (List Char) → Path → Option Path
  | [], cur => some cur
  | name :: rest, cur =>
    if !fs.isDir cur then none
    else if name = dot then walkWith new follow rest cur
    else if name = dotDot then walkWith new follow rest cur.dropLast
    else
      match fs.entry (cur ++ [name]) with
      | none => if new && rest.isEmpty then some (cur ++ [name]) else none
      | some (.link target) => follow (namesOf target ++ rest) (if isAbsolute target then [] else cur)
      | some _ => walkWith new follow rest (cur ++ [name])

/-- The place of names from a directory on, through a number of links at most. -/
def walk (new : Bool) : ℕ → List (List Char) → Path → Option Path
  | 0 => fs.walkWith new fun _ _ => none
  | links + 1 => fs.walkWith new (walk new links)

/-- The number of links that the system follows. -/
def maxLinks : ℕ := 40

/-- The place of a reference, if there is something. -/
def stat (r : Ref) : Option Path :=
  (fs.walk false maxLinks r.names r.start).filter fun p => (fs.entry p).isSome && (!r.slash || fs.isDir p)

/-- The place of a reference with a link at its end not followed. -/
def lstat (r : Ref) : Option Path :=
  match r.lastName? with
  | none => fs.stat r
  | some name =>
    (fs.walk false maxLinks r.names.dropLast r.start).bind fun p =>
      if (fs.entry (p ++ [name])).isSome then some (p ++ [name]) else none

def isDirAt (r : Ref) : Bool := (fs.stat r).any fs.isDir

/-- `Path::is_symlink`. -/
def isLinkAt (r : Ref) : Bool :=
  match (fs.lstat r).bind fs.entry with
  | some (.link _) => true
  | _ => false

/-- The places that are looked at on the way of names from a directory on. -/
def trailWith (follow : List (List Char) → Path → List Path) : List (List Char) → Path → List Path
  | [], cur => [cur]
  | name :: rest, cur =>
    cur ::
      if name = dot then trailWith follow rest cur
      else if name = dotDot then trailWith follow rest cur.dropLast
      else
        match fs.entry (cur ++ [name]) with
        | some (.link target) =>
          (cur ++ [name]) :: follow (namesOf target ++ rest) (if isAbsolute target then [] else cur)
        | _ => trailWith follow rest (cur ++ [name])

def trail : ℕ → List (List Char) → Path → List Path
  | 0 => fs.trailWith fun _ _ => []
  | links + 1 => fs.trailWith (trail links)

/-- The places that `stat` looks at, when there is something. -/
def trailOf (r : Ref) : List Path := fs.trail maxLinks r.names r.start

theorem isDir_iff : fs.isDir p = true ↔ fs.entry p = some .dir := by
  rw [isDir]
  split
  case h_1 h => simp [h]
  case h_2 h => simpa using h

/-- What leads to an entry is a directory. -/
theorem entry_of_prefix (h : p <+: q) (hne : p ≠ q) (hq : (fs.entry q).isSome = true) :
    fs.entry p = some .dir := by
  obtain ⟨t, rfl⟩ := h
  induction t using List.reverseRecOn with
  | nil => exact absurd (List.append_nil p).symm hne
  | append_singleton t name ih =>
    rw [← List.append_assoc] at hq
    have hparent := fs.parent (p ++ t) name hq
    rcases eq_or_ne p (p ++ t) with heq | hne'
    · rwa [← heq] at hparent
    · exact ih hne' (by rw [hparent]; rfl)

/-! ## Removing and making entries -/

/-- Some entries are gone, with all that is below them. -/
def erase (gone : Path → Bool) (hroot : gone [] = false)
    (hbelow : ∀ p name, gone p = true → (fs.entry (p ++ [name])).isSome = true → gone (p ++ [name]) = true) :
    FileSystem δ where
  entry p := if gone p then none else fs.entry p
  root := by rw [hroot, if_neg Bool.false_ne_true, fs.root]
  parent p name h := by
    by_cases hchild : gone (p ++ [name]) = true
    · rw [if_pos hchild] at h
      cases h
    · rw [if_neg hchild] at h
      rw [if_neg fun hp => hchild (hbelow p name hp h)]
      exact fs.parent p name h

/-- One entry is gone, unless it is a directory. -/
def unlink (p : Path) : FileSystem δ :=
  if hp : fs.isDir p = true then fs
  else fs.erase (fun q => q = p)
    (by
      rw [decide_eq_false_iff_not]
      rintro rfl
      exact hp (fs.isDir_iff.mpr fs.root))
    (by
      intro q name hq hchild
      rw [decide_eq_true_iff] at hq
      rw [hq] at hchild
      exact absurd (fs.isDir_iff.mpr (fs.parent p name hchild)) hp)

/-- What is below a directory is gone, and perhaps the directory. -/
def clear (p : Path) (own : Bool) : FileSystem δ :=
  fs.erase (fun q => p.isPrefixOf q && (q ≠ p || own) && q ≠ [])
    (by simp)
    (by
      intro q name hq hchild
      simp only [Bool.and_eq_true, List.isPrefixOf_iff_prefix] at hq ⊢
      obtain ⟨⟨habove, -⟩, -⟩ := hq
      refine ⟨⟨habove.trans (List.prefix_append q [name]), ?_⟩, by simp⟩
      have hne : q ++ [name] ≠ p := by
        rintro rfl
        have hlen := habove.length_le
        rw [List.length_append, List.length_singleton] at hlen
        omega
      simp [hne])

/-- A directory has an entry with the name now, unless the name is that of a directory. -/
def put (p : Path) (name : List Char) (e : Entry δ) : FileSystem δ :=
  if h : fs.isDir p = true ∧ ¬ fs.isDir (p ++ [name]) = true then
    { entry := fun q => if q = p ++ [name] then some e else fs.entry q
      root := by rw [if_neg (by simp), fs.root]
      parent := by
        intro q name' hchild
        have hq : fs.entry q = some .dir := by
          by_cases hnew : q ++ [name'] = p ++ [name]
          · rw [(List.append_inj' hnew rfl).1]
            exact fs.isDir_iff.mp h.1
          · rw [if_neg hnew] at hchild
            exact fs.parent q name' hchild
        rw [if_neg, hq]
        rintro rfl
        exact h.2 (fs.isDir_iff.mpr hq) }
  else fs

/-- What the reference names at its end, if it is no directory. -/
def filePlace (r : Ref) : Option Path := (if r.lastName?.isSome then fs.lstat r else none).filter fun p => !fs.isDir p

/-- `std::fs::remove_file`. -/
def removeFile (r : Ref) : Bool × FileSystem δ :=
  match fs.filePlace r with
  | none => (false, fs)
  | some p => (true, fs.unlink p)

/-- `std::fs::write`, which also makes a file where the last link leads to nothing. -/
def writeFile (r : Ref) (data : δ) : Bool × FileSystem δ :=
  match if r.slash then none else fs.walk true maxLinks r.names r.start with
  | none => (false, fs)
  | some p =>
    match p.getLast? with
    | some name => if fs.isDir p then (false, fs) else (true, fs.put p.dropLast name (.file data))
    | none => (false, fs)

/-- A directory that can be removed by the reference, once it is empty: the last name is that of the directory. -/
def ownsDir (r : Ref) (p : Path) : Bool :=
  p ≠ [] && r.names.getLast? ≠ some dot && r.names.getLast? ≠ some dotDot &&
    fs.lstat { r with slash := false } == some p

/-- `std::fs::remove_dir_all`: a link is removed, and a directory with all that is below it. -/
def removeDirAll (r : Ref) : Bool × FileSystem δ :=
  match fs.lstat r with
  | none => (false, fs)
  | some p =>
    match fs.entry p with
    | some (.link _) => (true, fs.unlink p)
    | some .dir => (fs.ownsDir r p, fs.clear p (fs.ownsDir r p))
    | _ => (false, fs)

/-- A `remove_dir_all` that fails on its way: some of what is below the place is gone. -/
def removePart (r : Ref) (gone : List Path) : FileSystem δ :=
  match fs.lstat r with
  | none => fs
  | some p =>
    fs.erase (fun q => gone.any fun g => p.isPrefixOf g && g ≠ p && g.isPrefixOf q)
      (by
        rw [List.any_eq_false]
        intro g _ h
        simp only [Bool.and_eq_true, List.isPrefixOf_iff_prefix, decide_eq_true_iff, List.prefix_nil] at h
        obtain ⟨⟨hp, hne⟩, rfl⟩ := h
        exact hne (List.prefix_nil.mp hp).symm)
      (by
        intro q name hq _
        simp only [List.any_eq_true, Bool.and_eq_true, List.isPrefixOf_iff_prefix] at hq ⊢
        obtain ⟨g, hg, hp, hgq⟩ := hq
        exact ⟨g, hg, hp, hgq.trans (List.prefix_append q [name])⟩)

/-- A new entry at the end of a reference, where there is nothing. -/
def make (r : Ref) (e : Entry δ) : Option (FileSystem δ) :=
  match r.names.getLast?, fs.walk false maxLinks r.names.dropLast r.start with
  | some name, some p =>
    if name ≠ dot && name ≠ dotDot && fs.isDir p && (fs.entry (p ++ [name])).isNone then some (fs.put p name e)
    else none
  | _, _ => none

/-- `symlink`. -/
def symlink (target : Path) (r : Ref) : Option (FileSystem δ) :=
  if r.slash then none else fs.make r (.link (textOf target))

/-- `std::fs::create_dir_all`, for a number of directories that are missing at most. -/
def createDirs : ℕ → Ref → Bool × FileSystem δ
  | 0, r => (fs.isDirAt r, fs)
  | n + 1, r =>
    match fs.make r .dir with
    | some fs' => (true, fs')
    | none =>
      if fs.isDirAt r then (true, fs)
      else
        match createDirs n r.parent with
        | (false, fs') => (false, fs')
        | (true, fs') =>
          match fs'.make r .dir with
          | some fs'' => (true, fs'')
          | none => (fs'.isDirAt r, fs')

def createDirAll (r : Ref) : Bool × FileSystem δ := fs.createDirs r.names.length r

/-- The same places with other data in the files. -/
def map {ε : Type} (f : δ → ε) : FileSystem ε where
  entry p := (fs.entry p).map fun
    | .dir => .dir
    | .link target => .link target
    | .file data => .file (f data)
  root := by rw [fs.root]; rfl
  parent p name h := by
    rw [Option.isSome_map] at h
    rw [fs.parent p name h]
    rfl

/-! ## Fewer entries -/

variable {fs}

/-- The entries of one file system are in another one. -/
def Within (fs' fs : FileSystem δ) : Prop := ∀ p e, fs'.entry p = some e → fs.entry p = some e

theorem within_refl (fs : FileSystem δ) : fs.Within fs := fun _ _ h => h

theorem Within.trans {fs₁ fs₂ fs₃ : FileSystem δ} (h : fs₁.Within fs₂) (h' : fs₂.Within fs₃) : fs₁.Within fs₃ :=
  fun p e he => h' p e (h p e he)

theorem Within.isSome {fs' : FileSystem δ} (h : fs'.Within fs) {p : Path} (hp : (fs'.entry p).isSome = true) :
    (fs.entry p).isSome = true := by
  obtain ⟨e, he⟩ := Option.isSome_iff_exists.mp hp
  rw [h p e he]
  rfl

theorem Within.isDir {fs' : FileSystem δ} (h : fs'.Within fs) {p : Path} (hp : fs'.isDir p = true) :
    fs.isDir p = true :=
  fs.isDir_iff.mpr (h p .dir (fs'.isDir_iff.mp hp))

theorem entry_erase (gone : Path → Bool) {hroot : gone [] = false}
    {hbelow : ∀ p name, gone p = true → (fs.entry (p ++ [name])).isSome = true → gone (p ++ [name]) = true} (p : Path) :
    (fs.erase gone hroot hbelow).entry p = if gone p then none else fs.entry p := rfl

theorem within_erase (gone : Path → Bool) {hroot : gone [] = false}
    {hbelow : ∀ p name, gone p = true → (fs.entry (p ++ [name])).isSome = true → gone (p ++ [name]) = true} :
    (fs.erase gone hroot hbelow).Within fs := by
  intro p e he
  rw [entry_erase] at he
  split at he
  · cases he
  · exact he

/-- What is found among fewer entries is found among all. -/
theorem Within.walkWith {fs' : FileSystem δ} (h : fs'.Within fs)
    {follow' follow : List (List Char) → Path → Option Path}
    (hfollow : ∀ names cur p, follow' names cur = some p → follow names cur = some p)
    {names : List (List Char)} {cur p : Path} (hp : fs'.walkWith false follow' names cur = some p) :
    fs.walkWith false follow names cur = some p := by
  induction names generalizing cur with
  | nil => exact hp
  | cons name rest ih =>
    rw [FileSystem.walkWith] at hp ⊢
    split at hp
    case isTrue => cases hp
    case isFalse hdir =>
      have hcur : fs'.isDir cur = true := by simpa using hdir
      rw [if_neg (by rw [h.isDir hcur]; decide)]
      split at hp
      case isTrue hdot =>
        rw [if_pos hdot]
        exact ih hp
      case isFalse hdot =>
        rw [if_neg hdot]
        split at hp
        case isTrue hup =>
          rw [if_pos hup]
          exact ih hp
        case isFalse hup =>
          rw [if_neg hup]
          cases hentry : fs'.entry (cur ++ [name]) with
          | none =>
            rw [hentry] at hp
            cases hp
          | some e =>
            rw [h _ e hentry]
            rw [hentry] at hp
            cases e with
            | link target => exact hfollow _ _ _ hp
            | dir => exact ih hp
            | file data => exact ih hp

theorem Within.walk {fs' : FileSystem δ} (h : fs'.Within fs) {links : ℕ} {names : List (List Char)} {cur p : Path}
    (hp : fs'.walk false links names cur = some p) : fs.walk false links names cur = some p := by
  induction links generalizing names cur p with
  | zero => exact h.walkWith (fun _ _ _ h => h) hp
  | succ links ih => exact h.walkWith (fun _ _ _ hp => ih hp) hp

theorem Within.stat {fs' : FileSystem δ} (h : fs'.Within fs) {r : Ref} {p : Path} (hp : fs'.stat r = some p) :
    fs.stat r = some p := by
  rw [FileSystem.stat, Option.filter_eq_some_iff] at hp ⊢
  obtain ⟨hwalk, hthere⟩ := hp
  rw [Bool.and_eq_true, Bool.or_eq_true] at hthere ⊢
  exact ⟨h.walk hwalk, h.isSome hthere.1, hthere.2.imp_right h.isDir⟩

theorem isSome_of_stat (h : fs.stat r = some p) : (fs.entry p).isSome = true := by
  rw [stat, Option.filter_eq_some_iff, Bool.and_eq_true] at h
  exact h.2.1

theorem isSome_of_lstat (h : fs.lstat r = some p) : (fs.entry p).isSome = true := by
  rw [lstat] at h
  split at h
  case h_1 => exact isSome_of_stat h
  case h_2 name _ =>
    obtain ⟨q, -, h⟩ := Option.bind_eq_some_iff.mp h
    split at h
    case isTrue hq =>
      obtain rfl := Option.some.inj h
      exact hq
    case isFalse => cases h

theorem Within.lstat {fs' : FileSystem δ} (h : fs'.Within fs) {r : Ref} {p : Path} (hp : fs'.lstat r = some p) :
    fs.lstat r = some p := by
  have hthere := h.isSome (isSome_of_lstat hp)
  rw [FileSystem.lstat] at hp ⊢
  cases hlast : r.lastName? with
  | none =>
    rw [hlast] at hp
    exact h.stat hp
  | some name =>
    rw [hlast] at hp
    obtain ⟨q, hwalk, hq⟩ := Option.bind_eq_some_iff.mp hp
    dsimp only
    rw [h.walk hwalk, Option.bind_some]
    split at hq
    case isTrue =>
      obtain rfl := Option.some.inj hq
      rw [if_pos hthere]
    case isFalse => cases hq

/-! ## What is removed -/

theorem entry_unlink (hp : fs.isDir p = false) (q : Path) :
    (fs.unlink p).entry q = if q = p then none else fs.entry q := by
  rw [unlink, dif_neg (by rw [hp]; decide), entry_erase]
  simp only [decide_eq_true_iff]

theorem within_unlink (fs : FileSystem δ) (p : Path) : (fs.unlink p).Within fs := by
  rw [unlink]
  split
  · exact fs.within_refl
  · exact within_erase _

theorem entry_clear (p : Path) (own : Bool) (q : Path) :
    (fs.clear p own).entry q = if p <+: q ∧ (q ≠ p ∨ own = true) ∧ q ≠ [] then none else fs.entry q := by
  rw [clear, entry_erase]
  simp only [Bool.and_eq_true, Bool.or_eq_true, List.isPrefixOf_iff_prefix, decide_eq_true_iff, and_assoc]

theorem within_clear (fs : FileSystem δ) (p : Path) (own : Bool) : (fs.clear p own).Within fs := within_erase _

theorem filePlace_eq_some :
    fs.filePlace r = some p ↔ r.lastName?.isSome = true ∧ fs.lstat r = some p ∧ fs.isDir p = false := by
  rw [filePlace, Option.filter_eq_some_iff, Bool.not_eq_true']
  split
  case isTrue h => simp only [h, true_and]
  case isFalse h => simp [h]

theorem Within.filePlace {fs' : FileSystem δ} (h : fs'.Within fs) {r : Ref} {p : Path} (hp : fs'.filePlace r = some p) :
    fs.filePlace r = some p := by
  rw [filePlace_eq_some] at hp ⊢
  obtain ⟨hname, hplace, hfile⟩ := hp
  refine ⟨hname, h.lstat hplace, ?_⟩
  obtain ⟨e, he⟩ := Option.isSome_iff_exists.mp (isSome_of_lstat hplace)
  rw [FileSystem.isDir, h p e he]
  rw [FileSystem.isDir, he] at hfile
  exact hfile

theorem within_removeFile (fs : FileSystem δ) (r : Ref) : (fs.removeFile r).2.Within fs := by
  rw [removeFile]
  split
  · exact fs.within_refl
  · exact fs.within_unlink _

/-- Nothing but the place of the file changes. -/
theorem removeFile_entry (h : (fs.removeFile r).2.entry q ≠ fs.entry q) : fs.filePlace r = some q := by
  rw [removeFile] at h
  split at h
  case h_1 => exact absurd rfl h
  case h_2 p hp =>
    rw [entry_unlink (filePlace_eq_some.mp hp).2.2] at h
    split at h
    case isTrue heq => rwa [heq]
    case isFalse => exact absurd rfl h

/-- A file with a name is in the directory that the reference leads to. -/
theorem stat_of_filePlace_join {name : List Char} (hslash : '/' ∉ name)
    (h : fs.filePlace (r.join name) = some q) : ∃ p, fs.stat r = some p ∧ q = p ++ [name] := by
  obtain ⟨hlast, hplace, -⟩ := filePlace_eq_some.mp h
  have habsolute : isAbsolute name = false := by
    cases name with
    | nil => rfl
    | cons c rest =>
      rw [isAbsolute, List.head?_cons, beq_eq_false_iff_ne]
      rintro ⟨⟩
      exact hslash List.mem_cons_self
  rcases eq_or_ne name [] with rfl | hne
  · -- the empty name only adds a slash
    rw [Ref.join, if_neg (by rw [habsolute]; decide), Ref.lastName?] at hlast
    cases hlast
  · have hend : name.getLast? ≠ some '/' := fun hend => hslash (List.mem_of_getLast? hend)
    have hjoin : r.join name = ⟨r.start, r.names ++ [name], false⟩ := by
      rw [Ref.join, if_neg (by rw [habsolute]; decide), namesOf, List.splitOn_eq_singleton hslash]
      simp [hne, hend]
    obtain ⟨last, hlast⟩ := Option.isSome_iff_exists.mp hlast
    have hname : last = name := by
      rw [hjoin, Ref.lastName?, if_neg Bool.false_ne_true, List.getLast?_append, List.getLast?_singleton,
        Option.filter_eq_some_iff] at hlast
      exact (Option.some.inj hlast.1).symm
    rw [lstat, hlast, hname, hjoin] at hplace
    obtain ⟨p, hwalk, hq⟩ := Option.bind_eq_some_iff.mp hplace
    rw [List.dropLast_concat] at hwalk
    split at hq
    case isFalse => cases hq
    case isTrue hthere =>
      refine ⟨p, ?_, (Option.some.inj hq).symm⟩
      have hdir := fs.parent p name hthere
      rw [stat, hwalk, Option.filter_some, hdir, fs.isDir_iff.mpr hdir, Bool.or_true]
      rfl

/-- What has something below it is a directory. -/
theorem exists_child (h : p <+: q) (hne : q ≠ p) (hq : (fs.entry q).isSome = true) :
    fs.isDir p = true ∧ ∃ name, (fs.entry (p ++ [name])).isSome = true := by
  refine ⟨fs.isDir_iff.mpr (fs.entry_of_prefix h hne.symm hq), ?_⟩
  obtain ⟨t, rfl⟩ := h
  cases t with
  | nil => exact absurd (List.append_nil p) hne
  | cons name rest =>
    refine ⟨name, ?_⟩
    rcases rest with _ | ⟨next, rest⟩
    · exact hq
    · rw [fs.entry_of_prefix (p := p ++ [name]) ⟨next :: rest, by simp⟩ (by simp) hq]
      rfl

/-- The reference leads to something at the place that `removeDirAll` removes: a link, or a directory that is removed or
has something in it. -/
structure Clears (fs : FileSystem δ) (r : Ref) (p : Path) : Prop where
  place : fs.lstat r = some p
  entry : (∃ target, fs.entry p = some (.link target)) ∨
    fs.isDir p = true ∧ (fs.ownsDir r p = true ∨ ∃ name, (fs.entry (p ++ [name])).isSome = true)

theorem Within.ownsDir {fs' : FileSystem δ} (h : fs'.Within fs) {r : Ref} {p : Path} (hp : fs'.ownsDir r p = true) :
    fs.ownsDir r p = true := by
  rw [FileSystem.ownsDir, Bool.and_eq_true, beq_iff_eq] at hp ⊢
  exact ⟨hp.1, h.lstat hp.2⟩

theorem Within.clears {fs' : FileSystem δ} (h : fs'.Within fs) {r : Ref} {p : Path} (hp : fs'.Clears r p) :
    fs.Clears r p where
  place := h.lstat hp.place
  entry := by
    refine hp.entry.imp (fun ⟨target, hlink⟩ => ⟨target, h p _ hlink⟩) fun ⟨hdir, hsome⟩ => ⟨h.isDir hdir, ?_⟩
    exact hsome.imp h.ownsDir fun ⟨name, hname⟩ => ⟨name, h.isSome hname⟩

theorem within_removeDirAll (fs : FileSystem δ) (r : Ref) : (fs.removeDirAll r).2.Within fs := by
  rw [removeDirAll]
  split
  · exact fs.within_refl
  · split
    · exact fs.within_unlink _
    · exact fs.within_clear _ _
    · exact fs.within_refl

theorem within_removePart (fs : FileSystem δ) (r : Ref) (gone : List Path) : (fs.removePart r gone).Within fs := by
  rw [removePart]
  split
  · exact fs.within_refl
  · exact within_erase _

theorem isSome_of_gone (h : none ≠ fs.entry q) : (fs.entry q).isSome = true :=
  Option.isSome_iff_ne_none.mpr h.symm

/-- What is not at the place or below it stays. -/
theorem removeDirAll_entry (h : (fs.removeDirAll r).2.entry q ≠ fs.entry q) :
    ∃ p, fs.Clears r p ∧ p <+: q := by
  rw [removeDirAll] at h
  split at h
  case h_1 => exact absurd rfl h
  case h_2 p hp =>
    split at h
    case h_1 target hlink =>
      rw [entry_unlink (by rw [isDir, hlink])] at h
      refine ⟨p, ⟨hp, .inl ⟨target, hlink⟩⟩, ?_⟩
      split at h
      case isTrue heq => exact heq ▸ List.prefix_rfl
      case isFalse => exact absurd rfl h
    case h_2 hdir =>
      rw [entry_clear] at h
      split at h
      case isFalse => exact absurd rfl h
      case isTrue hgone =>
        obtain ⟨habove, hown, -⟩ := hgone
        refine ⟨p, ⟨hp, .inr ⟨fs.isDir_iff.mpr hdir, ?_⟩⟩, habove⟩
        exact hown.symm.imp_right fun hne => (exists_child habove hne (isSome_of_gone h)).2
    case h_3 => exact absurd rfl h

theorem removePart_entry {gone : List Path} (h : (fs.removePart r gone).entry q ≠ fs.entry q) :
    ∃ p, fs.Clears r p ∧ p <+: q := by
  rw [removePart] at h
  split at h
  case h_1 => exact absurd rfl h
  case h_2 p hp =>
    rw [entry_erase] at h
    split at h
    case isFalse => exact absurd rfl h
    case isTrue hgone =>
      simp only [List.any_eq_true, Bool.and_eq_true, List.isPrefixOf_iff_prefix, decide_eq_true_iff] at hgone
      obtain ⟨g, -, ⟨habove, hne⟩, hbelow⟩ := hgone
      have hq : q ≠ p := by
        rintro rfl
        exact hne (hbelow.eq_of_length_le habove.length_le)
      obtain ⟨hdir, hchild⟩ := exists_child (habove.trans hbelow) hq (isSome_of_gone h)
      exact ⟨p, ⟨hp, .inr ⟨hdir, .inr hchild⟩⟩, habove.trans hbelow⟩

/-! ## What stays -/

/-- For the way to a place it does not matter what is in a file. -/
def Alike (e' e : Option (Entry δ)) : Prop := e' = e ∨ ∃ data' data, e' = some (.file data') ∧ e = some (.file data)

theorem alike_refl (e : Option (Entry δ)) : Alike e e := .inl rfl

theorem Alike.isDir {fs' : FileSystem δ} {p : Path} (h : Alike (fs'.entry p) (fs.entry p)) : fs'.isDir p = fs.isDir p := by
  rw [FileSystem.isDir, FileSystem.isDir]
  rcases h with heq | ⟨data', data, h', h⟩
  · rw [heq]
  · rw [h', h]

theorem Alike.isSome {e' e : Option (Entry δ)} (h : Alike e' e) : e'.isSome = e.isSome := by
  rcases h with rfl | ⟨data', data, rfl, rfl⟩ <;> rfl

/-- Two file systems that agree on the trail lead to the same place. -/
theorem walkWith_of_trail {fs' : FileSystem δ} {follow' follow : List (List Char) → Path → Option Path}
    {trail : List (List Char) → Path → List Path}
    (hfollow : ∀ names cur p, (∀ w ∈ trail names cur, Alike (fs'.entry w) (fs.entry w)) → follow names cur = some p →
      follow' names cur = some p)
    {names : List (List Char)} {cur p : Path}
    (h : ∀ w ∈ fs.trailWith trail names cur, Alike (fs'.entry w) (fs.entry w))
    (hp : fs.walkWith false follow names cur = some p) : fs'.walkWith false follow' names cur = some p := by
  induction names generalizing cur with
  | nil => exact hp
  | cons name rest ih =>
    rw [trailWith, List.forall_mem_cons] at h
    obtain ⟨hcur, h⟩ := h
    rw [FileSystem.walkWith] at hp ⊢
    rw [hcur.isDir]
    split at hp
    case isTrue => cases hp
    case isFalse hdir =>
      rw [if_neg hdir]
      split at hp
      case isTrue hdot =>
        rw [if_pos hdot] at h ⊢
        exact ih h hp
      case isFalse hdot =>
        rw [if_neg hdot] at h ⊢
        split at hp
        case isTrue hup =>
          rw [if_pos hup] at h ⊢
          exact ih h hp
        case isFalse hup =>
          rw [if_neg hup] at h ⊢
          -- every entry that the walk reads is on the trail
          cases hentry : fs.entry (cur ++ [name]) with
          | none =>
            rw [hentry] at hp
            cases hp
          | some e =>
            rw [hentry] at h hp
            cases e with
            | link target =>
              rw [List.forall_mem_cons, hentry] at h
              rcases h.1 with hlink | ⟨_, _, _, hfile⟩
              · rw [hlink]
                exact hfollow _ _ _ h.2 hp
              · cases hfile
            | dir =>
              have hhere := h (cur ++ [name]) (by cases rest <;> exact List.mem_cons_self)
              rw [hentry] at hhere
              rcases hhere with hdir' | ⟨_, _, _, hfile⟩
              · rw [hdir']
                exact ih h hp
              · cases hfile
            -- a file may hold other data, which the walk does not read
            | file data =>
              have hhere := h (cur ++ [name]) (by cases rest <;> exact List.mem_cons_self)
              rw [hentry] at hhere
              rcases hhere with hfile | ⟨data', _, hfile, _⟩
              all_goals
                rw [hfile]
                exact ih h hp

theorem walk_of_trail {fs' : FileSystem δ} {links : ℕ} {names : List (List Char)} {cur p : Path}
    (h : ∀ w ∈ fs.trail links names cur, Alike (fs'.entry w) (fs.entry w))
    (hp : fs.walk false links names cur = some p) : fs'.walk false links names cur = some p := by
  induction links generalizing names cur p with
  | zero => exact walkWith_of_trail (fun _ _ _ _ h => h) h hp
  | succ links ih => exact walkWith_of_trail (fun _ _ _ hw hp => ih hw hp) h hp

/-- The place itself is on the trail. -/
theorem mem_trailWith {follow : List (List Char) → Path → Option Path} {trail : List (List Char) → Path → List Path}
    (hfollow : ∀ names cur p, follow names cur = some p → p ∈ trail names cur)
    (hp : fs.walkWith false follow names cur = some p) : p ∈ fs.trailWith trail names cur := by
  induction names generalizing cur with
  | nil =>
    obtain rfl := Option.some.inj hp
    exact List.mem_singleton_self _
  | cons name rest ih =>
    rw [trailWith]
    refine List.mem_cons_of_mem _ ?_
    rw [FileSystem.walkWith] at hp
    split at hp
    case isTrue => cases hp
    case isFalse =>
      split at hp
      case isTrue hdot =>
        rw [if_pos hdot]
        exact ih hp
      case isFalse hdot =>
        rw [if_neg hdot]
        split at hp
        case isTrue hup =>
          rw [if_pos hup]
          exact ih hp
        case isFalse hup =>
          rw [if_neg hup]
          split at hp
          case h_1 => cases hp
          case h_2 target hlink =>
            rw [hlink]
            exact List.mem_cons_of_mem _ (hfollow _ _ _ hp)
          case h_3 e hno hentry =>
            rw [hentry]
            cases e with
            | link target => exact absurd rfl (hno target)
            | dir | file => exact ih hp

theorem mem_trail {links : ℕ} (hp : fs.walk false links names cur = some p) :
    p ∈ fs.trail links names cur := by
  induction links generalizing names cur p with
  | zero => exact mem_trailWith (fun _ _ _ h => by cases h) hp
  | succ links ih => exact mem_trailWith (fun _ _ _ hp => ih hp) hp

theorem mem_trailOf {r : Ref} {p : Path} (hp : fs.stat r = some p) : p ∈ fs.trailOf r :=
  mem_trail (Option.filter_eq_some_iff.mp hp).1

/-- What the trail of a reference keeps, it leads to. -/
theorem stat_of_trail {fs' : FileSystem δ} {r : Ref} {p : Path}
    (h : ∀ w ∈ fs.trailOf r, Alike (fs'.entry w) (fs.entry w)) (hp : fs.stat r = some p) : fs'.stat r = some p := by
  have hplace := h p (mem_trailOf hp)
  rw [stat, Option.filter_eq_some_iff] at hp ⊢
  rw [hplace.isSome, hplace.isDir]
  exact ⟨walk_of_trail h hp.1, hp.2⟩

/-! ## Writing a file -/

/-- For what is there, it does not matter whether there may be nothing. -/
theorem walkWith_new {follow' follow : List (List Char) → Path → Option Path}
    (hfollow : ∀ names cur p, follow names cur = some p → follow' names cur = some p)
    (hp : fs.walkWith false follow names cur = some p) : fs.walkWith true follow' names cur = some p := by
  induction names generalizing cur with
  | nil => exact hp
  | cons name rest ih =>
    rw [FileSystem.walkWith] at hp ⊢
    split at hp
    case isTrue => cases hp
    case isFalse hdir =>
      rw [if_neg hdir]
      split at hp
      case isTrue hdot =>
        rw [if_pos hdot]
        exact ih hp
      case isFalse hdot =>
        rw [if_neg hdot]
        split at hp
        case isTrue hup =>
          rw [if_pos hup]
          exact ih hp
        case isFalse hup =>
          rw [if_neg hup]
          -- the one difference is a last name without an entry, where this walk fails
          cases hentry : fs.entry (cur ++ [name]) with
          | none =>
            rw [hentry] at hp
            cases hp
          | some e =>
            rw [hentry] at hp
            cases e with
            | link target => exact hfollow _ _ _ hp
            | dir => exact ih hp
            | file data => exact ih hp

theorem walk_new {links : ℕ} (hp : fs.walk false links names cur = some p) :
    fs.walk true links names cur = some p := by
  induction links generalizing names cur p with
  | zero => exact walkWith_new (fun _ _ _ h => h) hp
  | succ links ih => exact walkWith_new (fun _ _ _ hp => ih hp) hp

/-- A file that is there is written, and nothing else changes. -/
theorem writeFile_entry {old : δ} (hp : fs.stat r = some p) (hslash : r.slash = false)
    (hold : fs.entry p = some (.file old)) (data : δ) :
    (fs.writeFile r data).1 = true ∧
      ∀ q, (fs.writeFile r data).2.entry q = if q = p then some (.file data) else fs.entry q := by
  have hfile : fs.isDir p = false := by rw [isDir, hold]
  have hne : p ≠ [] := by
    rintro rfl
    rw [fs.root] at hold
    cases hold
  obtain ⟨dir, name, rfl⟩ : ∃ dir name, p = dir ++ [name] := (List.eq_nil_or_concat' p).resolve_left hne
  have hdir : fs.isDir dir = true := fs.isDir_iff.mpr (fs.parent dir name (by rw [hold]; rfl))
  rw [writeFile, if_neg (by rw [hslash]; decide), walk_new (Option.filter_eq_some_iff.mp hp).1]
  simp only [List.getLast?_concat, hfile, Bool.false_eq_true, if_false, List.dropLast_concat, true_and]
  intro q
  rw [put, dif_pos ⟨hdir, by rw [hfile]; decide⟩]

theorem put_file {p q : Path} {name : List Char} {e : Entry δ} {data : δ}
    (h : (fs.put p name e).entry q = some (.file data)) : e = .file data ∨ fs.entry q = some (.file data) := by
  rw [put] at h
  split at h
  case isTrue hput =>
    dsimp only at h
    split at h
    case isTrue => exact .inl (Option.some.inj h)
    case isFalse => exact .inr h
  case isFalse => exact .inr h

theorem writeFile_file {r : Ref} {p : Path} {data data' : δ}
    (h : (fs.writeFile r data).2.entry p = some (.file data')) : data' = data ∨ fs.entry p = some (.file data') := by
  rw [writeFile] at h
  split at h
  case h_1 => exact .inr h
  case h_2 =>
    split at h
    case h_1 =>
      split at h
      case isTrue => exact .inr h
      case isFalse =>
        refine (put_file h).imp_left fun heq => ?_
        rw [Entry.file.injEq] at heq
        exact heq.symm
    case h_2 => exact .inr h

/-- Making something else makes no file. -/
theorem make_file {fs' : FileSystem δ} {r : Ref} {e : Entry δ} (he : ∀ data, e ≠ .file data)
    (hmake : fs.make r e = some fs') {p : Path} {data : δ} (h : fs'.entry p = some (.file data)) :
    fs.entry p = some (.file data) := by
  rw [make] at hmake
  split at hmake
  case h_1 =>
    split at hmake
    case isTrue =>
      obtain rfl := Option.some.inj hmake
      exact (put_file h).resolve_left (he data)
    case isFalse => cases hmake
  case h_2 => cases hmake

theorem symlink_file {fs' : FileSystem δ} {r : Ref} {target : Path} (hmake : fs.symlink target r = some fs') {p : Path}
    {data : δ} (h : fs'.entry p = some (.file data)) : fs.entry p = some (.file data) := by
  rw [symlink] at hmake
  split at hmake
  · cases hmake
  · exact make_file (by simp) hmake h

theorem createDirs_file {n : ℕ} {data : δ} (h : (fs.createDirs n r).2.entry p = some (.file data)) :
    fs.entry p = some (.file data) := by
  induction n generalizing r fs with
  | zero => exact h
  | succ n ih =>
    rw [createDirs] at h
    split at h
    case h_1 fs' hmake => exact make_file (by simp) hmake h
    case h_2 =>
      split at h
      case isTrue => exact h
      case isFalse =>
        split at h
        case h_1 fs' hdirs =>
          refine ih (r := r.parent) ?_
          rw [hdirs]
          exact h
        case h_2 fs' hdirs =>
          refine ih (r := r.parent) ?_
          rw [hdirs]
          split at h
          case h_1 fs'' hmake => exact make_file (by simp) hmake h
          case h_2 => exact h

end FileSystem

end Builderbot.Lib.Posix
