import Mathlib.Data.List.Infix
import Mathlib.Data.List.TakeWhile

/-!
# Slash-separated paths

`filepath.Clean` and `filepath.Join` on the byte strings of Go, for systems whose separator is a slash. A path is its
elements, the parts between slashes, and whether it begins with a slash. `clean` goes through the elements once and
keeps those that have an effect.

The text of a cleaned absolute path determines its names, and a string test with a slash behind the directory is a
test of the names (`isPrefix_absolute`).
-/

namespace Builderbot.Lib.GoPath

def slash : UInt8 := 0x2F

/-- `.`, the directory itself. -/
def self : List UInt8 := [0x2E]

/-- `..`, the directory above. -/
def parent : List UInt8 := [0x2E, 0x2E]

/-- The elements of a path whose first element has begun with `cur`. -/
def elementsFrom (cur : List UInt8) : List UInt8 → List (List UInt8)
  | [] => if cur = [] then [] else [cur]
  | c :: s =>
    if c = slash then if cur = [] then elementsFrom [] s else cur :: elementsFrom [] s
    else elementsFrom (cur ++ [c]) s

/-- The parts between slashes, without the empty ones. -/
def elements (s : List UInt8) : List (List UInt8) := elementsFrom [] s

def isAbs (s : List UInt8) : Bool := s.head? = some slash

/-- The names on the way, after one more element. -/
def push (rooted : Bool) (out : List (List UInt8)) (e : List UInt8) : List (List UInt8) :=
  if e = self then out
  else if e = parent then
    match out.getLast? with
    | none => if rooted then [] else [e]
    | some last => if last = parent then out ++ [e] else out.dropLast
  else out ++ [e]

/-- Each element with a slash before it. -/
def render (es : List (List UInt8)) : List UInt8 := es.flatMap (slash :: ·)

/-- The text of the absolute path with these names. -/
def absolute (es : List (List UInt8)) : List UInt8 := if es = [] then [slash] else render es

/-- The text of the relative path with these names. -/
def relative (es : List (List UInt8)) : List UInt8 := if es = [] then self else (render es).tail

/-- `filepath.Clean`. -/
def clean (s : List UInt8) : List UInt8 :=
  if isAbs s then absolute ((elements s).foldl (push true) []) else relative ((elements s).foldl (push false) [])

/-- `filepath.Join`. -/
def join (parts : List (List UInt8)) : List UInt8 :=
  match parts.dropWhile (· = []) with
  | [] => []
  | parts => clean (List.intercalate [slash] parts)

/-- `filepath.Abs`, in a working directory. -/
def abs (cwd s : List UInt8) : List UInt8 := if isAbs s then clean s else join [cwd, s]

/-- What comes after the last slash. -/
def lastPart (s : List UInt8) : List UInt8 := (s.reverse.takeWhile (· ≠ slash)).reverse

/-- The element is between two slashes. -/
structure IsElement (e : List UInt8) : Prop where
  ne_nil : e ≠ []
  slash_notMem : slash ∉ e

/-- The element is an entry of a directory. -/
structure IsName (e : List UInt8) : Prop extends IsElement e where
  ne_self : e ≠ self
  ne_parent : e ≠ parent

instance (e : List UInt8) : Decidable (IsElement e) :=
  decidable_of_iff (e ≠ [] ∧ slash ∉ e) ⟨fun h => ⟨h.1, h.2⟩, fun h => ⟨h.ne_nil, h.slash_notMem⟩⟩

instance (e : List UInt8) : Decidable (IsName e) :=
  decidable_of_iff (IsElement e ∧ e ≠ self ∧ e ≠ parent)
    ⟨fun h => ⟨h.1, h.2.1, h.2.2⟩, fun h => ⟨h.toIsElement, h.ne_self, h.ne_parent⟩⟩

variable {es fs : List (List UInt8)} {e s t : List UInt8}

/-! ## Elements -/

theorem elementsFrom_append_slash (cur s t : List UInt8) :
    elementsFrom cur (s ++ slash :: t) = elementsFrom cur s ++ elements t := by
  induction s generalizing cur with
  | nil =>
    show (if slash = slash then if cur = [] then elements t else cur :: elements t else _) = _
    rw [if_pos rfl, elementsFrom]
    split <;> rfl
  | cons c s ih =>
    rw [List.cons_append, elementsFrom, elementsFrom]
    split
    case isTrue =>
      split
      · exact ih []
      · rw [ih [], List.cons_append]
    case isFalse => exact ih (cur ++ [c])

theorem elements_append_slash (s t : List UInt8) : elements (s ++ slash :: t) = elements s ++ elements t :=
  elementsFrom_append_slash [] s t

theorem elementsFrom_of_slash_notMem (cur : List UInt8) (h : slash ∉ s) : elementsFrom cur s = elementsFrom (cur ++ s) [] := by
  induction s generalizing cur with
  | nil => rw [List.append_nil]
  | cons c s ih =>
    obtain ⟨hc, hs⟩ := not_or.mp (List.mem_cons.not.mp h)
    show (if c = slash then _ else elementsFrom (cur ++ [c]) s) = _
    rw [if_neg (Ne.symm hc), ih (cur ++ [c]) hs, List.append_assoc, List.singleton_append]

/-- An element is a path of its own. -/
theorem elements_of_isElement (h : IsElement e) : elements e = [e] := by
  rw [elements, elementsFrom_of_slash_notMem [] h.slash_notMem, List.nil_append, elementsFrom, if_neg h.ne_nil]

theorem isElement_of_mem_elementsFrom {cur : List UInt8} (hcur : slash ∉ cur) (h : e ∈ elementsFrom cur s) : IsElement e := by
  induction s generalizing cur with
  | nil =>
    rw [elementsFrom] at h
    split at h
    case isTrue => cases h
    case isFalse hne =>
      rw [List.mem_singleton.mp h]
      exact ⟨hne, hcur⟩
  | cons c s ih =>
    rw [elementsFrom] at h
    split at h
    case isTrue =>
      split at h
      case isTrue => exact ih List.not_mem_nil h
      case isFalse hne =>
        rcases List.mem_cons.mp h with rfl | h
        · exact ⟨hne, hcur⟩
        · exact ih List.not_mem_nil h
    case isFalse hc =>
      refine ih ?_ h
      rw [List.mem_append, List.mem_singleton]
      exact fun hmem => hmem.elim hcur fun heq => hc heq.symm

theorem isElement_of_mem_elements (h : e ∈ elements s) : IsElement e := isElement_of_mem_elementsFrom List.not_mem_nil h

theorem render_cons (e : List UInt8) (es : List (List UInt8)) : render (e :: es) = slash :: (e ++ render es) :=
  List.flatMap_cons

theorem render_append (es fs : List (List UInt8)) : render (es ++ fs) = render es ++ render fs := List.flatMap_append

/-- The text of a path has its elements. -/
theorem elements_render (h : ∀ e ∈ es, IsElement e) : elements (render es) = es := by
  induction es with
  | nil => rfl
  | cons e es ih =>
    obtain ⟨he, hes⟩ := List.forall_mem_cons.mp h
    have hrest : elements (e ++ render es) = e :: es := by
      cases es with
      | nil => rw [render, List.flatMap_nil, List.append_nil, elements_of_isElement he]
      | cons e' es' =>
        rw [render_cons, elements_append_slash, elements_of_isElement he]
        have htail := ih hes
        rw [render_cons, ← List.nil_append (slash :: _), elements_append_slash] at htail
        exact congrArg (e :: ·) htail
    rw [render_cons, ← List.nil_append (slash :: _), elements_append_slash, hrest]
    rfl

theorem elements_absolute (h : ∀ e ∈ es, IsElement e) : elements (absolute es) = es := by
  rw [absolute]
  split
  case isTrue hnil => rw [hnil]; rfl
  case isFalse => exact elements_render h

theorem isAbs_absolute (es : List (List UInt8)) : isAbs (absolute es) = true := by
  cases es with
  | nil => rfl
  | cons e es => rfl

theorem absolute_injective (hes : ∀ e ∈ es, IsElement e) (hfs : ∀ e ∈ fs, IsElement e)
    (h : absolute es = absolute fs) : es = fs := by
  rw [← elements_absolute hes, h, elements_absolute hfs]

/-! ## Cleaning -/

theorem push_of_isName (rooted : Bool) (out : List (List UInt8)) (h : IsName e) : push rooted out e = out ++ [e] := by
  rw [push, if_neg h.ne_self, if_neg h.ne_parent]

/-- Names are kept. -/
theorem foldl_push_of_isName (rooted : Bool) (out : List (List UInt8)) (h : ∀ e ∈ es, IsName e) :
    es.foldl (push rooted) out = out ++ es := by
  induction es generalizing out with
  | nil => exact (List.append_nil out).symm
  | cons e es ih =>
    obtain ⟨he, hes⟩ := List.forall_mem_cons.mp h
    rw [List.foldl_cons, push_of_isName rooted out he, ih _ hes, List.append_assoc, List.singleton_append]

variable {out : List (List UInt8)}

theorem push_true_isName (hout : ∀ x ∈ out, IsName x) (he : IsElement e) :
    ∀ x ∈ push true out e, IsName x := by
  rw [push]
  split
  case isTrue => exact hout
  case isFalse hself =>
    split
    case isTrue =>
      split
      case h_1 => exact fun x hx => absurd hx List.not_mem_nil
      case h_2 last hlast =>
        have hname := hout last (List.mem_of_getLast? hlast)
        rw [if_neg hname.ne_parent]
        exact fun x hx => hout x (List.mem_of_mem_dropLast hx)
    case isFalse hparent =>
      intro x hx
      rcases List.mem_append.mp hx with hx | hx
      · exact hout x hx
      · rw [List.mem_singleton.mp hx]
        exact ⟨he, hself, hparent⟩

/-- What is left of an absolute path are names. -/
theorem foldl_push_true_isName (hout : ∀ x ∈ out, IsName x) (hes : ∀ e ∈ es, IsElement e) :
    ∀ x ∈ es.foldl (push true) out, IsName x := by
  induction es generalizing out with
  | nil => exact hout
  | cons e es ih =>
    obtain ⟨he, hes⟩ := List.forall_mem_cons.mp hes
    exact ih (push_true_isName hout he) hes

/-- The names of an absolute path. -/
def names (s : List UInt8) : List (List UInt8) := (elements s).foldl (push true) []

theorem isName_of_mem_names (h : e ∈ names s) : IsName e :=
  foldl_push_true_isName (fun _ hx => absurd hx List.not_mem_nil) (fun _ hx => isElement_of_mem_elements hx) e h

theorem clean_of_isAbs (h : isAbs s = true) : clean s = absolute (names s) := if_pos h

theorem names_absolute (h : ∀ e ∈ es, IsName e) : names (absolute es) = es := by
  rw [names, elements_absolute fun e he => (h e he).toIsElement, foldl_push_of_isName true [] h, List.nil_append]

theorem clean_absolute (h : ∀ e ∈ es, IsName e) : clean (absolute es) = absolute es := by
  rw [clean_of_isAbs (isAbs_absolute es), names_absolute h]

/-- A clean absolute path. -/
structure IsCleanAbs (s : List UInt8) : Prop where
  isAbs : isAbs s = true
  clean : clean s = s

instance (s : List UInt8) : Decidable (IsCleanAbs s) :=
  decidable_of_iff (GoPath.isAbs s = true ∧ GoPath.clean s = s) ⟨fun h => ⟨h.1, h.2⟩, fun h => ⟨h.isAbs, h.clean⟩⟩

theorem IsCleanAbs.eq_absolute (h : IsCleanAbs s) : s = absolute (names s) := by
  rw [← clean_of_isAbs h.isAbs, h.clean]

theorem isCleanAbs_clean (h : isAbs s = true) : IsCleanAbs (clean s) := by
  rw [clean_of_isAbs h]
  exact ⟨isAbs_absolute _, clean_absolute fun e he => isName_of_mem_names he⟩

theorem IsCleanAbs.eq_slash_iff (h : IsCleanAbs s) : s = [slash] ↔ names s = [] := by
  constructor
  · rintro rfl
    rfl
  · intro hnil
    rw [h.eq_absolute, hnil]
    rfl

theorem IsCleanAbs.length_pos (h : IsCleanAbs s) : 0 < s.length := by
  rw [List.length_pos_iff]
  rintro rfl
  exact absurd h.isAbs (by decide)

/-! ## Directories -/

/-- A text begins with a directory and a slash exactly if the directory is not the root and has further names below. -/
theorem isPrefix_absolute (hes : ∀ e ∈ es, IsElement e) (hfs : ∀ e ∈ fs, IsElement e) :
    absolute es ++ [slash] <+: absolute fs ↔ es ≠ [] ∧ es <+: fs ∧ es ≠ fs := by
  constructor
  · rintro ⟨t, ht⟩
    rw [List.append_assoc, List.singleton_append] at ht
    have hsplit : es ++ elements t = fs := by
      have helements := congrArg elements ht
      rwa [elements_append_slash, elements_absolute hes, elements_absolute hfs] at helements
    have hne : es ≠ [] := by
      rintro rfl
      cases fs with
      | nil => cases ht
      | cons f fs =>
        -- the first name of a path is no slash
        obtain ⟨hf, -⟩ := List.forall_mem_cons.mp hfs
        change slash :: slash :: t = slash :: (f ++ render fs) at ht
        have hhead := List.cons.inj ht |>.2
        cases f with
        | nil => exact hf.ne_nil rfl
        | cons c f =>
          obtain ⟨rfl, -⟩ := List.cons.inj hhead
          exact hf.slash_notMem List.mem_cons_self
    refine ⟨hne, ⟨elements t, hsplit⟩, ?_⟩
    rintro rfl
    have hlen := congrArg List.length ht
    rw [List.length_append, List.length_cons] at hlen
    omega
  · rintro ⟨hne, ⟨rest, rfl⟩, hproper⟩
    cases rest with
    | nil => exact absurd (List.append_nil es).symm hproper
    | cons f rest =>
      have happend : es ++ f :: rest ≠ [] := List.append_ne_nil_of_left_ne_nil hne _
      rw [absolute, if_neg hne, absolute, if_neg happend, render_append, render_cons]
      exact ⟨f ++ render rest, by rw [List.append_assoc, List.singleton_append]⟩

/-- The same with a slash behind the path as well. -/
theorem isPrefix_absolute_slash (hes : ∀ e ∈ es, IsElement e) (hfs : ∀ e ∈ fs, IsElement e) (hne : es ≠ []) :
    absolute es ++ [slash] <+: absolute fs ++ [slash] ↔ es <+: fs := by
  rw [List.prefix_concat_iff, isPrefix_absolute hes hfs]
  constructor
  · rintro (hsame | ⟨-, hpre, -⟩)
    · rw [absolute_injective hes hfs (List.append_cancel_right hsame)]
    · exact hpre
  · intro hpre
    by_cases hsame : es = fs
    · exact .inl (by rw [hsame])
    · exact .inr ⟨hne, hpre, hsame⟩

/-- The test for a path in a directory that code makes with strings. -/
def within (dir path : List UInt8) : Bool := (dir ++ [slash]).isPrefixOf path || path = dir

/-- The string test finds what is in a directory, but for what is below the root. -/
theorem within_iff {dir path : List UInt8} (hdir : IsCleanAbs dir) (hpath : IsCleanAbs path) :
    within dir path = true ↔ names dir <+: names path ∧ (dir = [slash] → path = [slash]) := by
  have hnames (s : List UInt8) : ∀ e ∈ names s, IsElement e := fun e he => (isName_of_mem_names he).toIsElement
  have heq : path = dir ↔ names dir = names path := by
    constructor
    · rintro rfl
      rfl
    · intro h
      rw [hpath.eq_absolute, ← h, ← hdir.eq_absolute]
  have hpre : dir ++ [slash] <+: path ↔ names dir ≠ [] ∧ names dir <+: names path ∧ names dir ≠ names path := by
    conv_lhs => rw [hdir.eq_absolute, hpath.eq_absolute]
    exact isPrefix_absolute (hnames dir) (hnames path)
  rw [within, Bool.or_eq_true, List.isPrefixOf_iff_prefix, decide_eq_true_eq, hpre, heq, hdir.eq_slash_iff,
    hpath.eq_slash_iff]
  constructor
  · rintro (⟨hne, hpre, -⟩ | hsame)
    · exact ⟨hpre, fun hnil => absurd hnil hne⟩
    · exact ⟨hsame ▸ List.prefix_refl _, fun hnil => hsame ▸ hnil⟩
  · rintro ⟨hpre, hroot⟩
    by_cases hsame : names dir = names path
    · exact .inr hsame
    · refine .inl ⟨fun hnil => hsame ?_, hpre, hsame⟩
      rw [hnil, hroot hnil]

/-! ## Relative paths -/

/-- What `push` leaves is never the directory itself. -/
theorem self_notMem_push {rooted : Bool} (h : self ∉ out) (e : List UInt8) : self ∉ push rooted out e := by
  have hconcat (hself : e ≠ self) : self ∉ out ++ [e] := by
    rw [List.mem_append, List.mem_singleton]
    exact fun hmem => hmem.elim h fun heq => hself heq.symm
  rw [push]
  split
  case isTrue => exact h
  case isFalse hself =>
    split
    case isTrue hparent =>
      split
      case h_1 =>
        split
        · exact List.not_mem_nil
        · exact hconcat hself ∘ List.mem_append_right out
      case h_2 =>
        split
        · exact hconcat hself
        · exact fun hmem => h (List.mem_of_mem_dropLast hmem)
    case isFalse => exact hconcat hself

/-- In an absolute directory it makes no difference whether one goes an element or what is left of it. -/
theorem foldl_push_push {dir : List (List UInt8)} (hself : self ∉ out) (hout : ∀ x ∈ out, IsElement x)
    (e : List UInt8) :
    (push false out e).foldl (push true) dir = push true (out.foldl (push true) dir) e := by
  have hconcat : (out ++ [e]).foldl (push true) dir = push true (out.foldl (push true) dir) e := by
    rw [List.foldl_append]
    rfl
  rw [push]
  split
  case isTrue hsame => rw [push, if_pos hsame]
  case isFalse =>
    split
    case isTrue hparent =>
      rcases List.eq_nil_or_concat out with rfl | ⟨before, last, rfl⟩
      · rw [hparent]
        rfl
      · rw [List.concat_eq_append] at hself hout hconcat ⊢
        rw [List.getLast?_concat]
        dsimp only
        split
        case isTrue => exact hconcat
        case isFalse hlast =>
          have hmem : last ∈ before ++ [last] := List.mem_append_right _ (List.mem_singleton_self last)
          have hname : IsName last := ⟨hout last hmem, fun heq => hself (heq ▸ hmem), hlast⟩
          have hnext : (before ++ [last]).foldl (push true) dir = before.foldl (push true) dir ++ [last] := by
            rw [List.foldl_append]
            exact push_of_isName true _ hname
          rw [List.dropLast_concat, hnext, hparent, push, if_neg (by decide), if_pos rfl, List.getLast?_concat]
          dsimp only
          rw [if_neg hlast, List.dropLast_concat]
    case isFalse => exact hconcat

/-- What is left of the elements of a relative path. -/
theorem reduced_invariant (hself : self ∉ out) (hout : ∀ x ∈ out, IsElement x) (hes : ∀ e ∈ es, IsElement e) :
    self ∉ es.foldl (push false) out ∧ ∀ x ∈ es.foldl (push false) out, IsElement x := by
  induction es generalizing out with
  | nil => exact ⟨hself, hout⟩
  | cons e es ih =>
    obtain ⟨he, hes⟩ := List.forall_mem_cons.mp hes
    refine ih (self_notMem_push hself e) (fun x hx => ?_) hes
    have hconcat : x ∈ out ++ [e] → IsElement x := fun hmem =>
      (List.mem_append.mp hmem).elim (hout x) fun hlast => List.mem_singleton.mp hlast ▸ he
    rw [push] at hx
    split at hx
    case isTrue => exact hout x hx
    case isFalse =>
      split at hx
      case isTrue =>
        split at hx
        case h_1 => exact hconcat (List.mem_append_right _ hx)
        case h_2 =>
          split at hx
          · exact hconcat hx
          · exact hout x (List.mem_of_mem_dropLast hx)
      case isFalse => exact hconcat hx

variable (dir : List (List UInt8))

/-- In an absolute directory it makes no difference whether a path is cleaned first. -/
theorem foldl_push_reduced (hes : ∀ e ∈ es, IsElement e) :
    (es.foldl (push false) []).foldl (push true) dir = es.foldl (push true) dir := by
  induction es using List.reverseRecOn with
  | nil => rfl
  | append_singleton es e ih =>
    have hbefore : ∀ x ∈ es, IsElement x := fun x hx => hes x (List.mem_append_left _ hx)
    obtain ⟨hself, hout⟩ := reduced_invariant List.not_mem_nil (fun x hx => absurd hx List.not_mem_nil) hbefore
    rw [List.foldl_append, List.foldl_append, List.foldl_cons, List.foldl_nil, foldl_push_push hself hout,
      ih hbefore]
    rfl

/-- The text of a relative path has its elements, but that none is spelled as the directory itself. -/
theorem elements_relative (h : ∀ e ∈ es, IsElement e) : elements (relative es) = if es = [] then [self] else es := by
  cases es with
  | nil => rfl
  | cons e es =>
    have helements := elements_render h
    rw [render_cons, ← List.nil_append (slash :: _), elements_append_slash] at helements
    exact helements

theorem foldl_push_relative (h : ∀ e ∈ es, IsElement e) :
    (elements (relative es)).foldl (push true) dir = es.foldl (push true) dir := by
  rw [elements_relative h]
  split
  case isTrue hnil =>
    rw [hnil]
    rfl
  case isFalse => rfl

/-- In an absolute directory a text leads to where its cleaned form does. -/
theorem foldl_push_clean (hrel : isAbs s = false) :
    (elements (clean s)).foldl (push true) dir = (elements s).foldl (push true) dir := by
  have hes : ∀ e ∈ elements s, IsElement e := fun e he => isElement_of_mem_elements he
  obtain ⟨-, hout⟩ := reduced_invariant List.not_mem_nil (fun x hx => absurd hx List.not_mem_nil) hes
  rw [clean, hrel, if_neg Bool.false_ne_true, foldl_push_relative dir hout, foldl_push_reduced dir hes]

theorem relative_cons (e : List UInt8) (es : List (List UInt8)) : relative (e :: es) = e ++ render es := rfl

theorem isAbs_append (t : List UInt8) (hs : s ≠ []) : isAbs (s ++ t) = isAbs s := by
  cases s with
  | nil => exact absurd rfl hs
  | cons c s => rfl

theorem isAbs_relative (h : ∀ e ∈ es, IsElement e) : isAbs (relative es) = false := by
  cases es with
  | nil => rfl
  | cons e es =>
    obtain ⟨he, -⟩ := List.forall_mem_cons.mp h
    rw [relative_cons, isAbs_append _ he.ne_nil]
    cases e with
    | nil => rfl
    | cons c e =>
      refine decide_eq_false fun hslash => he.slash_notMem ?_
      rw [Option.some.inj hslash]
      exact List.mem_cons_self

theorem isAbs_clean (s : List UInt8) : isAbs (clean s) = isAbs s := by
  rw [clean]
  split
  case isTrue habs => rw [isAbs_absolute, habs]
  case isFalse hrel =>
    have hes : ∀ e ∈ elements s, IsElement e := fun e he => isElement_of_mem_elements he
    rw [isAbs_relative (reduced_invariant List.not_mem_nil (fun x hx => absurd hx List.not_mem_nil) hes).2]
    exact ((Bool.not_eq_true _).mp hrel).symm

theorem names_clean (h : isAbs s = true) : names (clean s) = names s := by
  rw [clean_of_isAbs h, names_absolute fun e he => isName_of_mem_names he]

theorem relative_injective (hes : ∀ e ∈ es, IsName e) (hfs : ∀ e ∈ fs, IsName e) (h : relative es = relative fs) : es = fs := by
  have helements := congrArg elements h
  rw [elements_relative fun e he => (hes e he).toIsElement, elements_relative fun e he => (hfs e he).toIsElement] at helements
  split at helements
  case isTrue hnil =>
    split at helements
    case isTrue hnil' => rw [hnil, hnil']
    case isFalse => exact absurd rfl (hfs self (helements ▸ List.mem_singleton_self self)).ne_self
  case isFalse =>
    split at helements
    case isTrue => exact absurd rfl (hes self (helements ▸ List.mem_singleton_self self)).ne_self
    case isFalse => exact helements

/-- A suffix of the last element is one of the text. -/
theorem relative_concat_append (es : List (List UInt8)) (e x : List UInt8) :
    relative (es ++ [e ++ x]) = relative (es ++ [e]) ++ x := by
  cases es with
  | nil => rw [List.nil_append, List.nil_append, relative_cons, relative_cons, render, List.flatMap_nil, List.append_nil,
      List.append_nil]
  | cons e' es =>
    rw [List.cons_append, List.cons_append, relative_cons, relative_cons, render_append, render_append, render_cons,
      render_cons, render, render, List.flatMap_nil]
    simp

theorem absolute_concat_append (es : List (List UInt8)) (e x : List UInt8) :
    absolute (es ++ [e ++ x]) = absolute (es ++ [e]) ++ x := by
  have hne (y : List UInt8) : es ++ [y] ≠ [] := List.append_ne_nil_of_right_ne_nil _ (List.cons_ne_nil y [])
  rw [absolute, if_neg (hne _), absolute, if_neg (hne _), render_append, render_append, List.append_assoc]
  simp [render]

/-! ## The working directory -/

theorem clean_ne_nil (s : List UInt8) : clean s ≠ [] := by
  have hes : ∀ e ∈ elements s, IsElement e := fun e he => isElement_of_mem_elements he
  rw [clean]
  split
  case isTrue =>
    intro hnil
    have habs := isAbs_absolute ((elements s).foldl (push true) [])
    rw [hnil] at habs
    cases habs
  case isFalse =>
    obtain ⟨-, hout⟩ := reduced_invariant List.not_mem_nil (fun x hx => absurd hx List.not_mem_nil) hes
    rw [relative]
    split
    case isTrue => exact List.cons_ne_nil _ _
    case isFalse hne =>
      obtain ⟨e, es, hcons⟩ := List.exists_cons_of_ne_nil hne
      rw [hcons] at hout ⊢
      exact List.append_ne_nil_of_left_ne_nil (hout e List.mem_cons_self).ne_nil (render es)

theorem join_pair (ht : t ≠ []) (s : List UInt8) : join [t, s] = clean (t ++ slash :: s) := by
  have hdrop : [t, s].dropWhile (· = []) = [t, s] := List.dropWhile_cons_of_neg (by simpa using ht)
  rw [join, hdrop]
  simp [List.intercalate, List.intersperse]

variable {cwd : List UInt8}

/-- Where one starts in the working directory. -/
def start (cwd s : List UInt8) : List (List UInt8) := if isAbs s then [] else names cwd

theorem isAbs_abs (hcwd : isAbs cwd = true) (s : List UInt8) : isAbs (abs cwd s) = true := by
  have hne : cwd ≠ [] := by
    rintro rfl
    cases hcwd
  rw [abs]
  split
  case isTrue h => rw [isAbs_clean, h]
  case isFalse => rw [join_pair hne, isAbs_clean, isAbs_append _ hne, hcwd]

theorem names_abs (hcwd : isAbs cwd = true) (s : List UInt8) :
    names (abs cwd s) = (elements s).foldl (push true) (start cwd s) := by
  have hne : cwd ≠ [] := by
    rintro rfl
    cases hcwd
  rw [abs, start]
  split
  case isTrue habs => rw [names_clean habs, names]
  case isFalse =>
    rw [join_pair hne, names_clean (by rw [isAbs_append _ hne, hcwd]), names, elements_append_slash, List.foldl_append,
      names]

/-- A cleaned path leads where the path leads. -/
theorem names_abs_clean (hcwd : isAbs cwd = true) (s : List UInt8) : names (abs cwd (clean s)) = names (abs cwd s) := by
  rw [names_abs hcwd, names_abs hcwd, start, start, isAbs_clean]
  split
  case isTrue habs => exact names_clean habs
  case isFalse hrel => exact foldl_push_clean _ ((Bool.not_eq_true _).mp hrel)

/-- A path in a directory leads on from where the directory is. -/
theorem names_abs_join (hcwd : isAbs cwd = true) {dir : List UInt8} (hdir : dir ≠ []) (s : List UInt8) :
    names (abs cwd (join [dir, s])) = (elements s).foldl (push true) (names (abs cwd dir)) := by
  rw [join_pair hdir, names_abs_clean hcwd, names_abs hcwd, names_abs hcwd, elements_append_slash, List.foldl_append,
    start, start, isAbs_append _ hdir]

theorem isCleanAbs_abs (hcwd : isAbs cwd = true) (s : List UInt8) : IsCleanAbs (abs cwd s) := by
  have hne : cwd ≠ [] := by
    rintro rfl
    cases hcwd
  rw [abs]
  split
  case isTrue habs => exact isCleanAbs_clean habs
  case isFalse =>
    rw [join_pair hne]
    exact isCleanAbs_clean (by rw [isAbs_append _ hne, hcwd])

/-! ## The last part -/

theorem slash_notMem_lastPart (s : List UInt8) : slash ∉ lastPart s := by
  rw [lastPart, List.mem_reverse]
  intro hmem
  have hne := List.mem_takeWhile_imp hmem
  exact absurd rfl (of_decide_eq_true hne)

/-- A text is its last part, or has a slash before it. -/
theorem eq_lastPart (s : List UInt8) : s = lastPart s ∨ ∃ before, s = before ++ slash :: lastPart s := by
  have hsplit : s = (s.reverse.dropWhile (· ≠ slash)).reverse ++ lastPart s := by
    rw [lastPart, ← List.reverse_append, List.takeWhile_append_dropWhile, List.reverse_reverse]
  cases hrest : s.reverse.dropWhile (· ≠ slash) with
  | nil =>
    rw [hrest] at hsplit
    exact .inl hsplit
  | cons c rest =>
    have hc : c = slash := by
      have hnot := List.head?_dropWhile_not (fun c => decide (c ≠ slash)) s.reverse
      rw [hrest] at hnot
      simpa using hnot
    refine .inr ⟨rest.reverse, ?_⟩
    rw [hrest, List.reverse_cons, hc, List.append_assoc] at hsplit
    exact hsplit

/-- What is written behind a path is written behind its last part. -/
theorem exists_elements_append (s : List UInt8) : ∃ before, (∀ e ∈ before, IsElement e) ∧
    ∀ x, slash ∉ x → lastPart s ++ x ≠ [] → elements (s ++ x) = before ++ [lastPart s ++ x] := by
  have hlast (x : List UInt8) (hx : slash ∉ x) (hne : lastPart s ++ x ≠ []) : elements (lastPart s ++ x) = [lastPart s ++ x] :=
    elements_of_isElement ⟨hne, fun hmem => (List.mem_append.mp hmem).elim (slash_notMem_lastPart s) hx⟩
  rcases eq_lastPart s with hs | ⟨before, hs⟩
  · refine ⟨[], fun e he => absurd he List.not_mem_nil, fun x hx hne => ?_⟩
    rw [← hs] at hlast ⊢
    exact hlast x hx (hs ▸ hne)
  · refine ⟨elements before, fun e he => isElement_of_mem_elements he, fun x hx hne => ?_⟩
    rw [← hlast x hx hne, ← elements_append_slash, ← List.cons_append, ← List.append_assoc, ← hs]

end Builderbot.Lib.GoPath
