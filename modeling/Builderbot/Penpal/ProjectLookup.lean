import Builderbot.Lib.GoPath
import Builderbot.Lib.Utf8

/-!
# The project of a directory

`FindProjectByPath` and `FindProjectByPathWithWorktree` of `apps/penpal/internal/cache/cache.go`, and the tool
`penpal_find_project` that answers with what they find. The roots of the projects are tried first, and the longest
one wins; of the worktrees, the first one wins.

`findProject_mostSpecific_iff` says when this gives the most specific root or worktree. A string of Go is its bytes.
-/

namespace Builderbot.Penpal.Lookup

open Lib GoPath

structure Worktree where
  name : List UInt8
  path : List UInt8
  isMain : Bool
deriving DecidableEq, Repr

structure Project where
  name : List UInt8
  path : List UInt8
  workspaceName : List UInt8
  worktrees : List Worktree
deriving DecidableEq, Repr

def Project.qualifiedName (p : Project) : List UInt8 :=
  if p.workspaceName ≠ [] then p.workspaceName ++ slash :: p.name else p.name

/-- A turn of the loop of `FindProjectByPath`, with the best project so far and the length of its path. -/
def better (absPath : List UInt8) (best : Option Project × ℤ) (p : Project) : Option Project × ℤ :=
  let projPath := clean p.path
  if within projPath absPath ∧ best.2 < projPath.length then (some p, projPath.length) else best

def findProjectByPath (projects : List Project) (absPath : List UInt8) : Option Project :=
  (projects.foldl (better (clean absPath)) (none, -1)).1

/-- The path is in a worktree that is not the main one. -/
def Worktree.holds (absPath : List UInt8) (wt : Worktree) : Bool := !wt.isMain && within wt.path absPath

/-- `FindProjectByPathWithWorktree`. The source returns the name of the worktree, or the empty string. -/
def findProjectByPathWithWorktree (projects : List Project) (absPath : List UInt8) : Option (Project × Option Worktree) :=
  let absPath := clean absPath
  match findProjectByPath projects absPath with
  | some p => some (p, p.worktrees.find? (Worktree.holds absPath))
  | none => projects.findSome? fun p => (p.worktrees.find? (Worktree.holds absPath)).map fun wt => (p, some wt)

/-- The result of `penpal_find_project`. -/
structure FoundProject where
  project : List UInt8
  path : List UInt8
  worktree : List UInt8
deriving DecidableEq, Repr

/-- `penpal_find_project`. -/
def penpalFindProject (projects : List Project) (directory : List UInt8) : Except (List UInt8) FoundProject :=
  if directory = [] then .error (Utf8.encode "directory is required".toList)
  else
    match findProjectByPathWithWorktree projects directory with
    | none => .error (Utf8.encode "no project found for directory: ".toList ++ directory)
    | some (p, wt) => .ok ⟨p.qualifiedName, p.path, (wt.map Worktree.name).getD []⟩

/-! ## What is to be found -/

/-- A project, or one of its worktrees. -/
abbrev Location := Project × Option Worktree

def Location.path (l : Location) : List UInt8 :=
  match l.2 with
  | some wt => wt.path
  | none => l.1.path

/-- The roots and the worktrees that are not the main one. -/
def locations (projects : List Project) : List Location :=
  projects.flatMap fun p => (p, none) :: (p.worktrees.filter fun wt => !wt.isMain).map fun wt => (p, some wt)

/-- The directory is the path or contains it. -/
def Contains (dir absPath : List UInt8) : Prop := names dir <+: names absPath

instance (dir absPath : List UInt8) : Decidable (Contains dir absPath) :=
  inferInstanceAs (Decidable (names dir <+: names absPath))

/-- The longest root or worktree that contains the path is found, and nothing if none does. -/
structure MostSpecific (projects : List Project) (absPath : List UInt8) (found : Option Location) : Prop where
  none_iff : found = none ↔ ∀ l ∈ locations projects, ¬ Contains l.path absPath
  longest : ∀ l ∈ found, l ∈ locations projects ∧ Contains l.path absPath ∧
    ∀ l' ∈ locations projects, Contains l'.path absPath → l'.path.length ≤ l.path.length

/-- The element is the first one of the list with the property. -/
def Leads {α : Type*} (p : α → Bool) (xs : List α) (x : α) : Prop :=
  ∃ before after, xs = before ++ x :: after ∧ p x = true ∧ ∀ y ∈ before, p y = false

/-- The project has the longest root that contains the path, and is the first one with a root of this length. -/
def Home (projects : List Project) (absPath : List UInt8) (p : Project) : Prop :=
  ∃ before after, projects = before ++ p :: after ∧ within p.path absPath = true ∧
    (∀ q ∈ before, within q.path absPath = true → q.path.length < p.path.length) ∧
    ∀ q ∈ after, within q.path absPath = true → q.path.length ≤ p.path.length

/-- The worktrees of all projects. -/
def allWorktrees (projects : List Project) : List (Project × Worktree) :=
  projects.flatMap fun p => p.worktrees.map fun wt => (p, wt)

/-- Roots and worktrees that contain the path are nested and listed such that no longer one is overlooked. -/
structure WellPlaced (projects : List Project) (absPath : List UInt8) : Prop where
  /-- A path below `/` is not only in `/`. -/
  root : absPath ≠ [slash] → (∃ l ∈ locations projects, l.path = [slash]) →
    ∃ l ∈ locations projects, l.path ≠ [slash] ∧ Contains l.path absPath
  /-- The first worktree of the project is not above its root. -/
  inward : ∀ p wt, Home projects absPath p → Leads (Worktree.holds absPath) p.worktrees wt →
    p.path.length ≤ wt.path.length
  /-- The first worktree of the project is not above another one. -/
  order : ∀ p wt, Home projects absPath p → Leads (Worktree.holds absPath) p.worktrees wt →
    ∀ wt' ∈ p.worktrees, wt'.holds absPath = true → wt'.path.length ≤ wt.path.length
  /-- A worktree of another project below the root of the project is not below all worktrees of the project. -/
  crossed : ∀ p, Home projects absPath p → ∀ q ∈ projects, ∀ wt ∈ q.worktrees, wt.holds absPath = true →
    p.path.length < wt.path.length → ∃ wt' ∈ p.worktrees, wt'.holds absPath = true ∧ wt.path.length ≤ wt'.path.length
  /-- Outside of all roots, the first worktree is not above another one. -/
  outside : (∀ p ∈ projects, within p.path absPath = false) → ∀ x,
    Leads (fun x => x.2.holds absPath) (allWorktrees projects) x →
      ∀ y ∈ allWorktrees projects, y.2.holds absPath = true → y.2.path.length ≤ x.2.path.length

/-- All roots and worktrees are given by clean absolute paths. -/
def CleanPaths (projects : List Project) : Prop := ∀ l ∈ locations projects, IsCleanAbs l.path

instance (projects : List Project) : Decidable (CleanPaths projects) :=
  inferInstanceAs (Decidable (∀ l ∈ locations projects, IsCleanAbs l.path))

variable {projects : List Project} {absPath : List UInt8} {p q : Project} {wt : Worktree} {l : Location}

theorem mem_locations : l ∈ locations projects ↔
    l.1 ∈ projects ∧ (l.2 = none ∨ ∃ wt ∈ l.1.worktrees, wt.isMain = false ∧ l.2 = some wt) := by
  obtain ⟨p, wt⟩ := l
  rw [locations, List.mem_flatMap]
  constructor
  · rintro ⟨q, hq, hmem⟩
    rcases List.mem_cons.mp hmem with heq | hmem
    · cases heq
      exact ⟨hq, .inl rfl⟩
    · obtain ⟨wt', hwt', heq⟩ := List.mem_map.mp hmem
      cases heq
      obtain ⟨hmem', hmain⟩ := List.mem_filter.mp hwt'
      exact ⟨hq, .inr ⟨wt', hmem', (Bool.not_eq_true' _).mp hmain, rfl⟩⟩
  · rintro ⟨hp, hnone | ⟨wt', hwt', hmain, hsome⟩⟩
    · exact ⟨p, hp, List.mem_cons.mpr (.inl (Prod.ext rfl hnone))⟩
    · refine ⟨p, hp, List.mem_cons_of_mem _ (List.mem_map.mpr ⟨wt', ?_, Prod.ext rfl hsome.symm⟩)⟩
      exact List.mem_filter.mpr ⟨hwt', (Bool.not_eq_true' _).mpr hmain⟩

theorem root_mem_locations (hp : p ∈ projects) : (p, none) ∈ locations projects := mem_locations.mpr ⟨hp, .inl rfl⟩

theorem worktree_mem_locations (hp : p ∈ projects) (hwt : wt ∈ p.worktrees) (hholds : wt.holds absPath = true) :
    (p, some wt) ∈ locations projects := by
  rw [Worktree.holds, Bool.and_eq_true, Bool.not_eq_true'] at hholds
  exact mem_locations.mpr ⟨hp, .inr ⟨wt, hwt, hholds.1, rfl⟩⟩

theorem within_of_holds (h : wt.holds absPath = true) : within wt.path absPath = true := (Bool.and_eq_true _ _ ▸ h).2

/-- A location that the string test accepts is a root or a worktree that holds the path. -/
theorem cases_of_within (hl : l ∈ locations projects) (hwithin : within l.path absPath = true) :
    (∃ p ∈ projects, l = (p, none)) ∨ ∃ p ∈ projects, ∃ wt ∈ p.worktrees, wt.holds absPath = true ∧ l = (p, some wt) := by
  obtain ⟨p, wt⟩ := l
  obtain ⟨hp, hnone | ⟨wt', hwt, hmain, hsome⟩⟩ := mem_locations.mp hl
  · exact .inl ⟨p, hp, Prod.ext rfl hnone⟩
  · dsimp only at hsome
    subst hsome
    refine .inr ⟨p, hp, wt', hwt, ?_, rfl⟩
    rw [Worktree.holds, hmain]
    exact hwithin

theorem leads_iff {α : Type*} {p : α → Bool} {xs : List α} {x : α} : Leads p xs x ↔ xs.find? p = some x := by
  rw [List.find?_eq_some_iff_append, Leads]
  constructor
  · rintro ⟨before, after, hxs, hx, hbefore⟩
    exact ⟨hx, before, after, hxs, fun y hy => (Bool.not_eq_true' _).mpr (hbefore y hy)⟩
  · rintro ⟨hx, before, after, hxs, hbefore⟩
    exact ⟨before, after, hxs, hx, fun y hy => (Bool.not_eq_true' _).mp (hbefore y hy)⟩

/-! ## The roots -/

theorem Home.mem (h : Home projects absPath p) : p ∈ projects := by
  obtain ⟨before, after, rfl, -⟩ := h
  exact List.mem_append_right _ List.mem_cons_self

theorem Home.within (h : Home projects absPath p) : within p.path absPath = true := h.choose_spec.choose_spec.2.1

theorem Home.length_le (h : Home projects absPath p) (hq : q ∈ projects) (hwithin : GoPath.within q.path absPath = true) :
    q.path.length ≤ p.path.length := by
  obtain ⟨before, after, rfl, -, hbefore, hafter⟩ := h
  rcases List.mem_append.mp hq with hq | hq
  · exact (hbefore q hq hwithin).le
  · rcases List.mem_cons.mp hq with rfl | hq
    · exact le_rfl
    · exact hafter q hq hwithin

/-- Only one project has the longest root and comes first. -/
theorem Home.unique (h : Home projects absPath p) (h' : Home projects absPath q) : p = q := by
  obtain ⟨before, after, hsplit, hp, hbefore, hafter⟩ := h
  obtain ⟨before', after', hsplit', hq, hbefore', hafter'⟩ := h'
  rcases List.append_eq_append_iff.mp (hsplit.symm.trans hsplit') with ⟨mid, hmid, hrest⟩ | ⟨mid, hmid, hrest⟩
  · cases mid with
    | nil => exact (List.cons.inj hrest).1
    | cons r mid =>
      obtain ⟨rfl, hlater⟩ := List.cons.inj hrest
      have hlt := hbefore' p (hmid ▸ List.mem_append_right _ List.mem_cons_self) hp
      have hle := hafter q (hlater ▸ List.mem_append_right _ List.mem_cons_self) hq
      exact absurd hle (Nat.not_le_of_lt hlt)
  · cases mid with
    | nil => exact (List.cons.inj hrest).1.symm
    | cons r mid =>
      obtain ⟨rfl, hlater⟩ := List.cons.inj hrest
      have hlt := hbefore q (hmid ▸ List.mem_append_right _ List.mem_cons_self) hq
      have hle := hafter' p (hlater ▸ List.mem_append_right _ List.mem_cons_self) hp
      exact absurd hle (Nat.not_le_of_lt hlt)

/-- What the loop has found after some of the projects. -/
structure Found (projects : List Project) (absPath : List UInt8) (best : Option Project × ℤ) : Prop where
  none : best.1 = none → best.2 = -1 ∧ ∀ p ∈ projects, within p.path absPath = false
  some : ∀ p, best.1 = some p → best.2 = p.path.length ∧ Home projects absPath p

/-- One turn of the loop. -/
theorem Found.better {best : Option Project × ℤ} (h : Found projects absPath best) (hclean : clean q.path = q.path) :
    Found (projects ++ [q]) absPath (better absPath best q) := by
  rw [Lookup.better, hclean]
  obtain ⟨found, len⟩ := best
  split
  -- the new project is longer than the best one, hence than all before
  case isTrue hbetter =>
    obtain ⟨hwithin, hlen⟩ := hbetter
    refine ⟨fun hnone => (by cases hnone), fun p hp => ?_⟩
    obtain rfl := Option.some.inj hp
    refine ⟨rfl, projects, [], rfl, hwithin, fun r hr hr' => ?_, fun r hr => absurd hr List.not_mem_nil⟩
    cases found with
    | none =>
      rw [(h.none rfl).2 r hr] at hr'
      cases hr'
    | some p =>
      obtain ⟨hbest, hhome⟩ := h.some p rfl
      dsimp only at hbest hlen
      have hle := hhome.length_le hr hr'
      omega
  -- it is not within the path, or no longer than the best one
  case isFalse hworse =>
    have hlast (r : Project) (hr : r ∈ [q]) (hwithin : GoPath.within r.path absPath = true) : ¬ len < r.path.length := by
      rw [List.mem_singleton.mp hr] at hwithin ⊢
      exact fun hlt => hworse ⟨hwithin, hlt⟩
    refine ⟨fun hnone => ?_, fun p hp => ?_⟩
    · obtain ⟨hlen, hothers⟩ := h.none hnone
      refine ⟨hlen, fun r hr => ?_⟩
      rcases List.mem_append.mp hr with hr | hr
      · exact hothers r hr
      · by_contra hwithin
        have hnot := hlast r hr (Bool.not_eq_false _ ▸ hwithin)
        dsimp only at hlen
        omega
    · obtain ⟨hlen, before, after, hsplit, hp', hbefore, hafter⟩ := h.some p hp
      refine ⟨hlen, before, after ++ [q], by rw [hsplit, List.append_assoc, List.cons_append], hp', hbefore, ?_⟩
      intro r hr hwithin
      rcases List.mem_append.mp hr with hr | hr
      · exact hafter r hr hwithin
      · have hnot := hlast r hr hwithin
        dsimp only at hlen
        omega

theorem found_findProjectByPath (hclean : ∀ p ∈ projects, clean p.path = p.path) :
    Found projects absPath (projects.foldl (better absPath) (none, -1)) := by
  induction projects using List.reverseRecOn with
  | nil => exact ⟨fun _ => ⟨rfl, fun p hp => absurd hp List.not_mem_nil⟩, fun p hp => by cases hp⟩
  | append_singleton projects q ih =>
    rw [List.foldl_append]
    refine (ih fun p hp => hclean p (List.mem_append_left _ hp)).better ?_
    exact hclean q (List.mem_append_right _ (List.mem_singleton_self q))

variable (hclean : ∀ p ∈ projects, clean p.path = p.path)
include hclean

theorem findProjectByPath_eq_some_iff : findProjectByPath projects absPath = some p ↔ Home projects (clean absPath) p := by
  have hfound : Found projects (clean absPath) (projects.foldl (better (clean absPath)) (none, -1)) :=
    found_findProjectByPath hclean
  refine ⟨fun h => (hfound.some p h).2, fun h => ?_⟩
  cases hbest : findProjectByPath projects absPath with
  | none =>
    have hnot := (hfound.none hbest).2 p h.mem
    rw [h.within] at hnot
    cases hnot
  | some q => rw [(hfound.some q hbest).2.unique h]

theorem findProjectByPath_eq_none_iff :
    findProjectByPath projects absPath = none ↔ ∀ p ∈ projects, within p.path (clean absPath) = false := by
  have hfound : Found projects (clean absPath) (projects.foldl (better (clean absPath)) (none, -1)) :=
    found_findProjectByPath hclean
  refine ⟨fun h => (hfound.none h).2, fun h => ?_⟩
  cases hbest : findProjectByPath projects absPath with
  | none => rfl
  | some q =>
    have hhome := (hfound.some q hbest).2
    have hnot := h q hhome.mem
    rw [hhome.within] at hnot
    cases hnot

omit hclean

/-! ## The worktrees -/

theorem findSome?_worktrees (projects : List Project) (holds : Worktree → Bool) :
    (projects.findSome? fun p => (p.worktrees.find? holds).map fun wt => (p, some wt)) =
      ((allWorktrees projects).find? fun x => holds x.2).map fun x => (x.1, some x.2) := by
  induction projects with
  | nil => rfl
  | cons p projects ih =>
    have hfirst : (p.worktrees.map fun wt => (p, wt)).find? (fun x => holds x.2) =
        (p.worktrees.find? holds).map fun wt => (p, wt) := List.find?_map
    have hall : allWorktrees (p :: projects) = (p.worktrees.map fun wt => (p, wt)) ++ allWorktrees projects :=
      List.flatMap_cons
    rw [List.findSome?_cons, ih, hall, List.find?_append, hfirst]
    cases p.worktrees.find? holds <;> rfl

theorem mem_allWorktrees {x : Project × Worktree} : x ∈ allWorktrees projects ↔ x.1 ∈ projects ∧ x.2 ∈ x.1.worktrees := by
  rw [allWorktrees, List.mem_flatMap]
  constructor
  · rintro ⟨p, hp, hx⟩
    obtain ⟨wt, hwt, rfl⟩ := List.mem_map.mp hx
    exact ⟨hp, hwt⟩
  · rintro ⟨hp, hwt⟩
    exact ⟨x.1, hp, List.mem_map.mpr ⟨x.2, hwt, rfl⟩⟩

theorem Leads.mem {α : Type*} {p : α → Bool} {xs : List α} {x : α} (h : Leads p xs x) : x ∈ xs ∧ p x = true := by
  obtain ⟨before, after, rfl, hx, -⟩ := h
  exact ⟨List.mem_append_right _ List.mem_cons_self, hx⟩

/-- How the search goes: in the project with the longest root, or else in all worktrees. -/
inductive Searched (projects : List Project) (absPath : List UInt8) : Option Location → Prop where
  | worktree (p : Project) (wt : Worktree) : Home projects absPath p → Leads (Worktree.holds absPath) p.worktrees wt →
      Searched projects absPath (some (p, some wt))
  | root (p : Project) : Home projects absPath p → (∀ wt ∈ p.worktrees, wt.holds absPath = false) →
      Searched projects absPath (some (p, none))
  | outside (x : Project × Worktree) : (∀ p ∈ projects, within p.path absPath = false) →
      Leads (fun x => x.2.holds absPath) (allWorktrees projects) x → Searched projects absPath (some (x.1, some x.2))
  | nowhere : (∀ p ∈ projects, within p.path absPath = false) →
      (∀ x ∈ allWorktrees projects, x.2.holds absPath = false) → Searched projects absPath none

theorem searched (hclean : ∀ p ∈ projects, clean p.path = p.path) (habs : isAbs absPath = true) :
    Searched projects (clean absPath) (findProjectByPathWithWorktree projects absPath) := by
  have htwice : clean (clean absPath) = clean absPath := (isCleanAbs_clean habs).clean
  rw [findProjectByPathWithWorktree]
  cases hbest : findProjectByPath projects (clean absPath) with
  | some p =>
    have hhome := (findProjectByPath_eq_some_iff hclean).mp hbest
    rw [htwice] at hhome
    dsimp only
    cases hfind : p.worktrees.find? (Worktree.holds (clean absPath)) with
    | some wt => exact .worktree p wt hhome (leads_iff.mpr hfind)
    | none => exact .root p hhome fun wt hwt => (Bool.not_eq_true _).mp (List.find?_eq_none.mp hfind wt hwt)
  | none =>
    have hroots := (findProjectByPath_eq_none_iff hclean).mp hbest
    rw [htwice] at hroots
    dsimp only
    rw [findSome?_worktrees]
    cases hfind : (allWorktrees projects).find? fun x => x.2.holds (clean absPath) with
    | some x => exact .outside x hroots (leads_iff.mpr hfind)
    | none => exact .nowhere hroots fun x hx => (Bool.not_eq_true _).mp (List.find?_eq_none.mp hfind x hx)

variable {found : Option Location}

/-- What is found is a location that holds the path. -/
theorem Searched.mem (h : Searched projects absPath found) :
    ∀ l ∈ found, l ∈ locations projects ∧ within l.path absPath = true := by
  intro l hl
  cases h with
  | worktree p wt hhome hleads =>
    cases hl
    exact ⟨worktree_mem_locations hhome.mem hleads.mem.1 hleads.mem.2, within_of_holds hleads.mem.2⟩
  | root p hhome =>
    cases hl
    exact ⟨root_mem_locations hhome.mem, hhome.within⟩
  | outside x hroots hleads =>
    cases hl
    obtain ⟨hp, hwt⟩ := mem_allWorktrees.mp hleads.mem.1
    exact ⟨worktree_mem_locations hp hwt hleads.mem.2, within_of_holds hleads.mem.2⟩
  | nowhere => cases hl

/-- Nothing is found when no location holds the path. -/
theorem Searched.eq_none_iff (h : Searched projects absPath found) :
    found = none ↔ ∀ l ∈ locations projects, within l.path absPath = false := by
  constructor
  · rintro rfl l hl
    cases h with
    | nowhere hroots hworktrees =>
      by_contra hwithin
      rcases cases_of_within hl (Bool.not_eq_false _ ▸ hwithin) with ⟨p, hp, rfl⟩ | ⟨p, hp, wt, hwt, hholds, rfl⟩
      · exact hwithin (hroots p hp)
      · rw [hworktrees (p, wt) (mem_allWorktrees.mpr ⟨hp, hwt⟩)] at hholds
        cases hholds
  · intro hnone
    cases found with
    | none => rfl
    | some l =>
      obtain ⟨hl, hwithin⟩ := h.mem l rfl
      rw [hnone l hl] at hwithin
      cases hwithin

/-- The longest of the locations that hold the path. -/
def Longest (projects : List Project) (absPath : List UInt8) (l : Location) : Prop :=
  ∀ l' ∈ locations projects, within l'.path absPath = true → l'.path.length ≤ l.path.length

/-- What is found is the longest when nothing is placed badly. -/
theorem Searched.longest (h : WellPlaced projects absPath) (hsearched : Searched projects absPath found) :
    ∀ l ∈ found, Longest projects absPath l := by
  intro l hl l' hl' hwithin
  cases hsearched with
  | nowhere => cases hl
  | worktree p wt hhome hleads =>
    cases hl
    rcases cases_of_within hl' hwithin with ⟨q, hq, rfl⟩ | ⟨q, hq, wt', hwt', hholds, rfl⟩
    · exact (hhome.length_le hq hwithin).trans (h.inward p wt hhome hleads)
    · by_cases hbelow : p.path.length < wt'.path.length
      · obtain ⟨wt₂, hwt₂, hholds₂, hle⟩ := h.crossed p hhome q hq wt' hwt' hholds hbelow
        exact hle.trans (h.order p wt hhome hleads wt₂ hwt₂ hholds₂)
      · exact (Nat.le_of_not_lt hbelow).trans (h.inward p wt hhome hleads)
  | root p hhome hnone =>
    cases hl
    rcases cases_of_within hl' hwithin with ⟨q, hq, rfl⟩ | ⟨q, hq, wt', hwt', hholds, rfl⟩
    · exact hhome.length_le hq hwithin
    · by_contra hbelow
      obtain ⟨wt₂, hwt₂, hholds₂, -⟩ := h.crossed p hhome q hq wt' hwt' hholds (Nat.lt_of_not_le hbelow)
      rw [hnone wt₂ hwt₂] at hholds₂
      cases hholds₂
  | outside x hroots hleads =>
    cases hl
    rcases cases_of_within hl' hwithin with ⟨q, hq, rfl⟩ | ⟨q, hq, wt', hwt', hholds, rfl⟩
    · rw [Location.path, hroots q hq] at hwithin
      cases hwithin
    · exact h.outside hroots x hleads (q, wt') (mem_allWorktrees.mpr ⟨hq, hwt'⟩) hholds

/-- The search finds the project with the longest root, and its first worktree if there is one. -/
theorem Searched.of_home (h : Searched projects absPath found) (hhome : Home projects absPath p) :
    (∃ wt, Leads (Worktree.holds absPath) p.worktrees wt ∧ found = some (p, some wt)) ∨
      (∀ wt ∈ p.worktrees, wt.holds absPath = false) ∧ found = some (p, none) := by
  cases h with
  | worktree q wt hq hleads =>
    obtain rfl := hq.unique hhome
    exact .inl ⟨wt, hleads, rfl⟩
  | root q hq hnone =>
    obtain rfl := hq.unique hhome
    exact .inr ⟨hnone, rfl⟩
  | outside x hroots =>
    have hnot := hroots p hhome.mem
    rw [hhome.within] at hnot
    cases hnot
  | nowhere hroots =>
    have hnot := hroots p hhome.mem
    rw [hhome.within] at hnot
    cases hnot

theorem Leads.unique {α : Type*} {p : α → Bool} {xs : List α} {x y : α} (h : Leads p xs x) (h' : Leads p xs y) : x = y :=
  Option.some.inj ((leads_iff.mp h).symm.trans (leads_iff.mp h'))

/-- Where the longest location is found, nothing is placed badly but for what is only in `/`. -/
theorem Searched.wellPlaced (h : Searched projects absPath found)
    (hlongest : ∀ l ∈ found, Longest projects absPath l)
    (hroot : absPath ≠ [slash] → (∃ l ∈ locations projects, l.path = [slash]) →
      ∃ l ∈ locations projects, l.path ≠ [slash] ∧ Contains l.path absPath) : WellPlaced projects absPath := by
  have hfirst (p : Project) (wt : Worktree) (hhome : Home projects absPath p)
      (hleads : Leads (Worktree.holds absPath) p.worktrees wt) : Longest projects absPath (p, some wt) := by
    rcases h.of_home hhome with ⟨wt', hleads', hfound⟩ | ⟨hnone, -⟩
    · obtain rfl := hleads.unique hleads'
      exact hlongest _ hfound
    · have hholds := hleads.mem.2
      rw [hnone wt hleads.mem.1] at hholds
      cases hholds
  refine ⟨hroot, fun p wt hhome hleads => ?_, fun p wt hhome hleads wt' hwt' hholds => ?_,
    fun p hhome q hq wt hwt hholds hbelow => ?_, fun hroots x hleads y hy hholds => ?_⟩
  · exact hfirst p wt hhome hleads (p, none) (root_mem_locations hhome.mem) hhome.within
  · exact hfirst p wt hhome hleads (p, some wt') (worktree_mem_locations hhome.mem hwt' hholds) (within_of_holds hholds)
  · have hmem := worktree_mem_locations hq hwt hholds
    rcases h.of_home hhome with ⟨wt', hleads, hfound⟩ | ⟨-, hfound⟩
    · exact ⟨wt', hleads.mem.1, hleads.mem.2, hlongest _ hfound _ hmem (within_of_holds hholds)⟩
    · exact absurd (hlongest _ hfound _ hmem (within_of_holds hholds)) (Nat.not_le_of_lt hbelow)
  · obtain ⟨hq, hwt⟩ := mem_allWorktrees.mp hy
    have hmem := worktree_mem_locations hq hwt hholds
    cases h with
    | worktree p wt hhome =>
      have hnot := hroots p hhome.mem
      rw [hhome.within] at hnot
      cases hnot
    | root p hhome =>
      have hnot := hroots p hhome.mem
      rw [hhome.within] at hnot
      cases hnot
    | outside x' _ hleads' =>
      obtain rfl := hleads.unique hleads'
      exact hlongest _ rfl _ hmem (within_of_holds hholds)
    | nowhere _ hnone =>
      rw [hnone y hy] at hholds
      cases hholds

/-- The longest root or worktree that contains the path is found exactly when roots and worktrees are placed such that
no longer one is overlooked. -/
theorem findProject_mostSpecific_iff (hpaths : CleanPaths projects) (habs : isAbs absPath = true) :
    MostSpecific projects absPath (findProjectByPathWithWorktree projects absPath) ↔
      WellPlaced projects (clean absPath) := by
  have hclean (p : Project) (hp : p ∈ projects) : clean p.path = p.path := (hpaths (p, none) (root_mem_locations hp)).clean
  have hsearched := searched hclean habs
  have hnames : names (clean absPath) = names absPath := by
    rw [clean_of_isAbs habs, names_absolute fun e he => isName_of_mem_names he]
  have hcleaned (l : Location) : Contains l.path (clean absPath) ↔ Contains l.path absPath := by
    rw [Contains, hnames, Contains]
  have hwithin (l : Location) (hl : l ∈ locations projects) : within l.path (clean absPath) = true ↔
      Contains l.path absPath ∧ (l.path = [slash] → clean absPath = [slash]) := by
    rw [within_iff (hpaths l hl) (isCleanAbs_clean habs), ← hcleaned l, Contains]
  constructor
  · intro h
    refine hsearched.wellPlaced (fun l hl l' hl' hin => ?_) fun hbelow ⟨l, hl, hslash⟩ => ?_
    · exact (h.longest l hl).2.2 l' hl' ((hwithin l' hl').mp hin).1
    · have hcontains : Contains l.path absPath := by
        rw [Contains, hslash]
        exact List.nil_prefix
      cases hfound : findProjectByPathWithWorktree projects absPath with
      | none => exact absurd hcontains (h.none_iff.mp hfound l hl)
      | some l' =>
        obtain ⟨hl', hin⟩ := hsearched.mem l' hfound
        obtain ⟨hcontains', hroot⟩ := (hwithin l' hl').mp hin
        exact ⟨l', hl', fun hslash' => hbelow (hroot hslash'), (hcleaned l').mpr hcontains'⟩
  · intro h
    have hfound (l : Location) (hl : l ∈ locations projects) (hcontains : Contains l.path absPath) :
        ∃ l' ∈ locations projects, within l'.path (clean absPath) = true := by
      -- the root directory contains every path, but `within` takes it for itself only
      by_cases hroot : l.path = [slash] ∧ clean absPath ≠ [slash]
      · obtain ⟨l', hl', hne, hcontains'⟩ := h.root hroot.2 ⟨l, hl, hroot.1⟩
        exact ⟨l', hl', (hwithin l' hl').mpr ⟨(hcleaned l').mp hcontains', fun hslash => absurd hslash hne⟩⟩
      · exact ⟨l, hl, (hwithin l hl).mpr ⟨hcontains, fun hslash => not_not.mp fun hne => hroot ⟨hslash, hne⟩⟩⟩
    refine ⟨hsearched.eq_none_iff.trans ⟨fun hnone l hl hcontains => ?_, fun hnone l hl => ?_⟩, fun l hl => ?_⟩
    · obtain ⟨l', hl', hin⟩ := hfound l hl hcontains
      rw [hnone l' hl'] at hin
      cases hin
    · exact (Bool.not_eq_true _).mp fun hin => hnone l hl ((hwithin l hl).mp hin).1
    · obtain ⟨hmem, hin⟩ := hsearched.mem l hl
      refine ⟨hmem, ((hwithin l hmem).mp hin).1, fun l' hl' hcontains => ?_⟩
      by_cases hslash : l'.path = [slash]
      · rw [hslash]
        exact (hpaths l hmem).length_pos
      · exact hsearched.longest h l hl l' hl' ((hwithin l' hl').mpr ⟨hcontains, fun heq => absurd heq hslash⟩)

/-- The project `b` has a worktree inside the project `a`. -/
def nested : List Project :=
  [⟨Utf8.encode "a".toList, Utf8.encode "/w/a".toList, [], []⟩,
    ⟨Utf8.encode "b".toList, Utf8.encode "/w/b".toList, [], [⟨Utf8.encode "t".toList, Utf8.encode "/w/a/t".toList, false⟩]⟩]

/-- A directory in the worktree is taken for one of the project around it. -/
theorem nested_overlooked : ¬ MostSpecific nested (Utf8.encode "/w/a/t/d".toList)
    (findProjectByPathWithWorktree nested (Utf8.encode "/w/a/t/d".toList)) := by
  intro h
  have hfound : findProjectByPathWithWorktree nested (Utf8.encode "/w/a/t/d".toList) =
      some (⟨Utf8.encode "a".toList, Utf8.encode "/w/a".toList, [], []⟩, none) := by
    decide
  obtain ⟨-, -, hlongest⟩ := h.longest _ hfound
  have hle := hlongest (⟨Utf8.encode "b".toList, Utf8.encode "/w/b".toList, [],
    [⟨Utf8.encode "t".toList, Utf8.encode "/w/a/t".toList, false⟩]⟩,
      some ⟨Utf8.encode "t".toList, Utf8.encode "/w/a/t".toList, false⟩) (by decide) (by decide)
  exact absurd hle (by decide)

/-- A directory of the project around it is found, for no worktree has it. -/
theorem findProject_mostSpecific_iff_nested : MostSpecific nested (Utf8.encode "/w/a/d".toList)
    (findProjectByPathWithWorktree nested (Utf8.encode "/w/a/d".toList)) := by
  have hnone : ∀ q ∈ nested, ∀ wt ∈ q.worktrees, wt.holds (clean (Utf8.encode "/w/a/d".toList)) = false := by decide
  have hleads : ∀ p wt, Home nested (clean (Utf8.encode "/w/a/d".toList)) p →
      ¬ Leads (Worktree.holds (clean (Utf8.encode "/w/a/d".toList))) p.worktrees wt := by
    rintro p wt ⟨before, after, hnested, -⟩ ⟨first, rest, hworktrees, hholds, -⟩
    have hp : p ∈ nested := hnested ▸ List.mem_append_right _ List.mem_cons_self
    rw [hnone p hp wt (hworktrees ▸ List.mem_append_right _ List.mem_cons_self)] at hholds
    cases hholds
  refine (findProject_mostSpecific_iff (by decide) (by decide)).mpr
    ⟨fun _ hroot => absurd hroot (by decide), fun p wt hp hwt => absurd hwt (hleads p wt hp),
      fun p wt hp hwt => absurd hwt (hleads p wt hp), fun p _ q hq wt hwt hholds => ?_, fun hout => ?_⟩
  · rw [hnone q hq wt hwt] at hholds
    cases hholds
  · exact absurd hout (by decide)

end Builderbot.Penpal.Lookup
