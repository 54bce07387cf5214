import Mathlib.Algebra.Ring.Int.Defs
import Mathlib.Algebra.Ring.Nat
import Mathlib.Data.List.DropRight

/-!
# Character-level text

Text is a list of characters. `splitOnce`, `splitn`, `lines`, `trim`, `parseU32` and `parseI64` follow the documented
behaviour of the Rust string methods of the same names; each comes with the one lemma that says how
it reads back text that was printed with the matching separator.
-/

namespace Builderbot.Lib.Text

/-- One instance for all decisions about lists of texts. -/
instance instLawfulBEqText : LawfulBEq (List Char) := inferInstance

/-- The number of values of a 32-bit machine word. -/
def u32Size : ℕ := 2 ^ 32

/-- `str::split_once`: the text before and after the first occurrence of `pat`. -/
def splitOnce (pat s : List Char) : Option (List Char × List Char) :=
  List.dropInfix? s pat

/-- Splitting at a separator whose first character does not occur before it. -/
theorem splitOnce_append {c : Char} {pat pre post : List Char} (hc : c ∉ pre) :
    splitOnce (c :: pat) (pre ++ (c :: pat) ++ post) = some (pre, post) := by
  rw [splitOnce, List.dropInfix?_eq_some_iff]
  refine ⟨⟨c :: pat, rfl, beq_self_eq_true _⟩, ?_⟩
  intro p' i' s' heq hi
  have hi' : i' = c :: pat := eq_of_beq hi
  subst hi'
  by_contra hlt
  have hget : (p' ++ (c :: pat) ++ s')[p'.length]? = some c := by simp
  rw [← heq, List.append_assoc, List.getElem?_append_left (by omega)] at hget
  exact hc (List.mem_of_getElem? hget)

/-- Splitting at a separator whose first character is absent finds nothing. -/
theorem splitOnce_eq_none {c : Char} {pat s : List Char} (hc : c ∉ s) :
    splitOnce (c :: pat) s = none := by
  rw [Option.eq_none_iff_forall_ne_some]
  rintro ⟨p, r⟩ h
  rw [splitOnce, List.dropInfix?_eq_some_iff] at h
  obtain ⟨⟨i', rfl, hi⟩, -⟩ := h
  have hi' : i' = c :: pat := eq_of_beq hi
  subst hi'
  exact hc (by simp)

/-- A text whose first character is absent from the part before occurs in the rest. -/
theorem infix_of_infix_append {c : Char} {pat w s : List Char} (hc : c ∉ w)
    (h : (c :: pat) <:+: w ++ s) : (c :: pat) <:+: s := by
  induction w with
  | nil => exact h
  | cons d w ih =>
    rw [List.mem_cons, not_or] at hc
    rw [List.cons_append, List.infix_cons_iff] at h
    rcases h with hpre | hinf
    · exact absurd (List.cons_prefix_cons.mp hpre).1 hc.1
    · exact ih hc.2 hinf

/-- A text that does not contain a character occurs on one side of it. -/
theorem infix_append_cons_iff {d : Char} {pat a b : List Char} (hd : d ∉ pat) :
    pat <:+: a ++ d :: b ↔ pat <:+: a ∨ pat <:+: b := by
  constructor
  · rintro ⟨x, y, h⟩
    rw [List.append_assoc, List.append_eq_append_iff] at h
    rcases h with ⟨u, rfl, hu⟩ | ⟨u, rfl, hu⟩
    · -- the occurrence begins in `a`, and the character is not in it
      rw [List.append_eq_append_iff] at hu
      rcases hu with ⟨v, rfl, hv⟩ | ⟨v, rfl, hv⟩
      · exact .inl ⟨x, v, by rw [List.append_assoc]⟩
      · cases v with
        | nil => exact .inl ⟨x, [], by simp⟩
        | cons e v =>
          rw [List.cons_append, List.cons.injEq] at hv
          exact absurd (by simp [hv.1]) hd
    · cases u with
      | nil =>
        rw [List.nil_append] at hu
        cases pat with
        | nil => exact .inl (List.nil_infix)
        | cons e pat =>
          rw [List.cons_append, List.cons.injEq] at hu
          exact absurd (by simp [hu.1]) hd
      | cons e u =>
        rw [List.cons_append, List.cons.injEq] at hu
        exact .inr ⟨u, y, by rw [hu.2, List.append_assoc]⟩
  · rintro (h | h)
    · exact h.trans (List.prefix_append a _).isInfix
    · exact h.trans ((List.suffix_cons d b).trans (List.suffix_append a _)).isInfix

/-- Splitting at a separator that does not occur before it and whose first character comes only
once: an earlier occurrence would reach over the first character of this one. -/
theorem splitOnce_append_of_not_infix {c : Char} {pat pre post : List Char} (hc : c ∉ pat)
    (h : ¬ (c :: pat) <:+: pre) : splitOnce (c :: pat) (pre ++ (c :: pat) ++ post) = some (pre, post) := by
  rw [splitOnce, List.dropInfix?_eq_some_iff]
  refine ⟨⟨c :: pat, rfl, beq_self_eq_true _⟩, ?_⟩
  intro p' i' s' heq hi
  have hi' : i' = c :: pat := eq_of_beq hi
  subst hi'
  by_contra hlt
  rcases Nat.lt_or_ge pre.length (p' ++ (c :: pat)).length with hlong | hshort
  · have hget : (pre ++ (c :: pat) ++ post)[pre.length]? = some c := by simp
    rw [heq, List.getElem?_append_left hlong, List.getElem?_append_right (by omega)] at hget
    obtain ⟨k, hk⟩ : ∃ k, pre.length - p'.length = k + 1 := ⟨pre.length - p'.length - 1, by omega⟩
    rw [hk, List.getElem?_cons_succ] at hget
    exact hc (List.mem_of_getElem? hget)
  · have hinit : p' ++ (c :: pat) <+: pre := by
      have hwhole : p' ++ (c :: pat) <+: pre ++ ((c :: pat) ++ post) := by
        rw [← List.append_assoc, heq]
        exact List.prefix_append _ s'
      exact List.prefix_of_prefix_length_le hwhole (List.prefix_append pre _) hshort
    exact h ((List.suffix_append p' (c :: pat)).isInfix.trans hinit.isInfix)

/-- A separator that occurs is found there or earlier. -/
theorem exists_splitOnce (pat x y : List Char) : ∃ p r,
    splitOnce pat (x ++ pat ++ y) = some (p, r) ∧ p ++ pat ++ r = x ++ pat ++ y ∧ p.length ≤ x.length := by
  induction hn : x.length using Nat.strong_induction_on generalizing x y with
  | h n ih =>
    by_cases hfirst : ∀ p r, x ++ pat ++ y = p ++ pat ++ r → x.length ≤ p.length
    · refine ⟨x, y, ?_, rfl, by omega⟩
      rw [splitOnce, List.dropInfix?_eq_some_iff]
      refine ⟨⟨pat, rfl, beq_self_eq_true _⟩, ?_⟩
      intro p' i' s' heq hi
      rw [eq_of_beq hi] at heq
      exact hfirst p' s' heq
    · push Not at hfirst
      obtain ⟨p, r, heq, hlt⟩ := hfirst
      obtain ⟨p', r', hsplit, happ, hle⟩ := ih p.length (by omega) p r rfl
      exact ⟨p', r', by rw [heq, hsplit], by rw [heq, happ], by omega⟩

/-- The split is at the first occurrence. -/
theorem splitOnce_eq_some_iff {pat s a b : List Char} : splitOnce pat s = some (a, b) ↔
    s = a ++ pat ++ b ∧ ∀ a' b', s = a' ++ pat ++ b' → a.length ≤ a'.length := by
  rw [splitOnce, List.dropInfix?_eq_some_iff]
  constructor
  · rintro ⟨⟨i, rfl, hi⟩, hmin⟩
    rw [eq_of_beq hi] at hmin ⊢
    exact ⟨rfl, fun a' b' heq => hmin a' pat b' heq (beq_self_eq_true pat)⟩
  · rintro ⟨rfl, hmin⟩
    refine ⟨⟨pat, rfl, beq_self_eq_true pat⟩, ?_⟩
    intro a' i b' heq hi
    rw [eq_of_beq hi] at heq
    exact hmin a' b' heq

theorem splitOnce_eq_none_iff {pat s : List Char} : splitOnce pat s = none ↔ ¬ pat <:+: s := by
  constructor
  · rintro h ⟨x, y, rfl⟩
    obtain ⟨p, r, hsplit, -⟩ := exists_splitOnce pat x y
    exact absurd (h.symm.trans hsplit) (by simp)
  · intro h
    rw [Option.eq_none_iff_forall_ne_some]
    rintro ⟨a, b⟩ hsplit
    exact h ⟨a, b, (splitOnce_eq_some_iff.mp hsplit).1.symm⟩

/-- `str::contains`. -/
def contains (pat s : List Char) : Bool := (splitOnce pat s).isSome

/-- `str::rsplit_once` at a character: the text before and after its last occurrence. -/
def rsplitOnce (c : Char) (s : List Char) : Option (List Char × List Char) :=
  match s.reverse.dropWhile (· ≠ c) with
  | [] => none
  | _ :: before => some (before.reverse, (s.reverse.takeWhile (· ≠ c)).reverse)

/-- Splitting at a separator that does not occur after it. -/
theorem rsplitOnce_append {c : Char} {post : List Char} (hc : c ∉ post) (pre : List Char) :
    rsplitOnce c (pre ++ c :: post) = some (pre, post) := by
  have hpost : ∀ d ∈ post.reverse, decide (d ≠ c) = true := by
    intro d hd
    have hne : d ≠ c := fun h => hc (h ▸ List.mem_reverse.mp hd)
    exact decide_eq_true hne
  rw [rsplitOnce, List.reverse_append, List.reverse_cons, List.append_assoc,
    List.dropWhile_append_of_pos hpost, List.takeWhile_append_of_pos hpost]
  simp

/-- Drop one trailing carriage return, as `str::lines` does before a line feed. -/
def stripCr (s : List Char) : List Char :=
  if s.getLast? = some '\r' then s.dropLast else s

/-- The loop of `lines`: `acc` holds the current line in reverse. -/
def linesFrom (acc : List Char) : List Char → List (List Char)
  | [] => if acc = [] then [] else [acc.reverse]
  | c :: cs => if c = '\n' then stripCr acc.reverse :: linesFrom [] cs else linesFrom (c :: acc) cs

/-- `str::lines`: split at line feeds, dropping the terminator and a carriage return before it. A
last line without terminator is kept unless it is empty. -/
def lines (s : List Char) : List (List Char) := linesFrom [] s

theorem linesFrom_append {l : List Char} (hl : '\n' ∉ l) (acc rest : List Char) :
    linesFrom acc (l ++ '\n' :: rest) = stripCr (acc.reverse ++ l) :: lines rest := by
  induction l generalizing acc with
  | nil => simp [linesFrom, lines]
  | cons c cs ih =>
    simp only [List.mem_cons, not_or] at hl
    have hc : c ≠ '\n' := fun h => hl.1 h.symm
    simp only [List.cons_append, linesFrom, if_neg hc]
    rw [ih hl.2]
    simp

/-- Print lines, each followed by a line feed. -/
def unlines (ls : List (List Char)) : List Char := ls.flatMap (· ++ ['\n'])

/-- Lines printed with terminators are read back, up to the carriage returns `lines` drops. -/
theorem lines_unlines {ls : List (List Char)} (hls : ∀ l ∈ ls, '\n' ∉ l) :
    lines (unlines ls) = ls.map stripCr := by
  induction ls with
  | nil => rfl
  | cons l ls ih =>
    have hl : '\n' ∉ l := hls l (by simp)
    have htail : ∀ l ∈ ls, '\n' ∉ l := fun l hmem => hls l (by simp [hmem])
    have hun : unlines (l :: ls) = l ++ '\n' :: unlines ls := by
      simp [unlines]
    rw [hun, lines, linesFrom_append hl, ih htail]
    simp

/-- A text without a line feed is a line. -/
theorem lines_of_notMem {s : List Char} (h : '\n' ∉ s) (hne : s ≠ []) : lines s = [s] := by
  have hfrom : ∀ t acc : List Char, '\n' ∉ t → acc.reverse ++ t ≠ [] →
      linesFrom acc t = [acc.reverse ++ t] := by
    intro t
    induction t with
    | nil =>
      intro acc _ hacc
      rw [List.append_nil] at hacc
      simp [linesFrom, List.reverse_eq_nil_iff.not.mp hacc]
    | cons c t ih =>
      intro acc hc _
      rw [List.mem_cons, not_or] at hc
      rw [linesFrom, if_neg (Ne.symm hc.1), ih _ hc.2 (by simp)]
      simp
  exact hfrom s [] h hne

/-- The lines before a line feed and the lines after it. -/
theorem lines_append_newline (pre post : List Char) :
    lines (pre ++ '\n' :: post) = lines (pre ++ ['\n']) ++ lines post := by
  have hfrom : ∀ acc, linesFrom acc (pre ++ '\n' :: post) =
      linesFrom acc (pre ++ ['\n']) ++ lines post := by
    induction pre with
    | nil =>
      intro acc
      simp [linesFrom, lines]
    | cons c cs ih =>
      intro acc
      simp only [List.cons_append, linesFrom]
      split
      · rw [ih, List.cons_append]
      · exact ih _
  exact hfrom []

/-- Carriage returns are only dropped from the end. -/
theorem stripCr_append {pre post : List Char} (h : post ≠ []) :
    stripCr (pre ++ post) = pre ++ stripCr post := by
  simp only [stripCr, List.getLast?_append_of_ne_nil _ h]
  split
  · exact List.dropLast_append_of_ne_nil h
  · rfl

/-- Text without carriage returns. -/
theorem stripCr_of_notMem {s : List Char} (h : '\r' ∉ s) : stripCr s = s := by
  rw [stripCr, if_neg]
  exact fun hlast => h (List.mem_of_getLast? hlast)

theorem isPrefix_stripCr (s : List Char) : stripCr s <+: s := by
  unfold stripCr
  split
  · exact List.dropLast_prefix s
  · exact List.prefix_refl s

/-- A dropped carriage return does not change what a line starts with. -/
theorem prefix_stripCr_iff {pat : List Char} (h : '\r' ∉ pat) (s : List Char) : pat <+: stripCr s ↔ pat <+: s := by
  constructor
  · exact fun hpre => hpre.trans (isPrefix_stripCr s)
  · rintro ⟨rest, rfl⟩
    by_cases hrest : rest = []
    · have hstrip : stripCr (pat ++ rest) = pat := by
        rw [hrest, List.append_nil, stripCr_of_notMem h]
      exact hstrip.symm ▸ List.prefix_refl pat
    · rw [stripCr_append hrest]
      exact List.prefix_append pat _

/-- The code points with the Unicode `White_Space` property, which `str::trim` removes. -/
def isWhiteSpace (c : Char) : Bool :=
  let n := c.toNat
  (9 ≤ n && n ≤ 13) || n == 0x20 || n == 0x85 || n == 0xA0 || n == 0x1680 ||
    (0x2000 ≤ n && n ≤ 0x200A) || n == 0x2028 || n == 0x2029 || n == 0x202F || n == 0x205F ||
    n == 0x3000

/-- `str::trim`. -/
def trim (s : List Char) : List Char :=
  ((s.dropWhile isWhiteSpace).reverse.dropWhile isWhiteSpace).reverse

/-- `str::trim_end`. -/
def trimEnd (s : List Char) : List Char := (s.reverse.dropWhile isWhiteSpace).reverse

/-- `str::trim_start`. -/
def trimStart (s : List Char) : List Char := s.dropWhile isWhiteSpace

@[simp] theorem trimStart_trimStart (s : List Char) : trimStart (trimStart s) = trimStart s :=
  List.dropWhile_idempotent _ s

/-- White space at the beginning is trimmed, up to a character that is none. -/
theorem length_trimStart_append {c : Char} (hc : isWhiteSpace c = false) (s t : List Char) :
    (c :: t).length ≤ (trimStart (s ++ c :: t)).length := by
  induction s with
  | nil => simp [trimStart, hc]
  | cons d s ih =>
    rw [List.cons_append, trimStart, List.dropWhile_cons]
    split
    · exact ih
    · simp only [List.length_cons, List.length_append]
      omega

/-- The loop of `splitWhitespace`: `acc` holds the current word in reverse. -/
def wordsFrom (acc : List Char) : List Char → List (List Char)
  | [] => if acc = [] then [] else [acc.reverse]
  | c :: cs =>
    if isWhiteSpace c then
      if acc = [] then wordsFrom [] cs else acc.reverse :: wordsFrom [] cs
    else wordsFrom (c :: acc) cs

/-- `str::split_whitespace`. -/
def splitWhitespace (s : List Char) : List (List Char) := wordsFrom [] s

/-- White space at the end makes no further word. -/
theorem splitWhitespace_concat (s : List Char) {c : Char} (hc : isWhiteSpace c = true) :
    splitWhitespace (s ++ [c]) = splitWhitespace s := by
  have hfrom : ∀ acc, wordsFrom acc (s ++ [c]) = wordsFrom acc s := by
    induction s with
    | nil =>
      intro acc
      simp only [List.nil_append, wordsFrom, hc, if_true]
    | cons d s ih =>
      intro acc
      simp only [List.cons_append, wordsFrom, ih]
  exact hfrom []

/-- White space at the end is trimmed. -/
theorem trim_concat (s : List Char) {c : Char} (hc : isWhiteSpace c = true) :
    trim (s ++ [c]) = trim s := by
  rw [trim, trim, List.dropWhile_append]
  split
  · rename_i hnil
    rw [List.isEmpty_iff.mp hnil, List.dropWhile_cons_of_pos hc]
    rfl
  · rw [List.reverse_append, List.reverse_singleton, List.singleton_append,
      List.dropWhile_cons_of_pos hc]

/-- Text without white space is already trimmed. -/
theorem trim_of_forall_not {s : List Char} (h : ∀ c ∈ s, isWhiteSpace c = false) : trim s = s := by
  have hdrop : ∀ t : List Char, (∀ c ∈ t, isWhiteSpace c = false) →
      t.dropWhile isWhiteSpace = t := by
    intro t ht
    cases t with
    | nil => rfl
    | cons c cs => simp [ht c (by simp)]
  rw [trim, hdrop s h, hdrop s.reverse (by simpa using h), List.reverse_reverse]

theorem mem_dropWhile_of_not {p : Char → Bool} {s : List Char} {c : Char} (h : c ∈ s) (hc : p c = false) :
    c ∈ s.dropWhile p := by
  induction s with
  | nil => exact h
  | cons d s ih =>
    cases hd : p d with
    | true =>
      rw [List.dropWhile_cons_of_pos hd]
      apply ih
      rcases List.mem_cons.mp h with rfl | hmem
      · exact absurd (hc.symm.trans hd) Bool.false_ne_true
      · exact hmem
    | false =>
      rw [List.dropWhile_cons_of_neg (Bool.eq_false_iff.mp hd)]
      exact h

theorem exists_of_dropWhile_ne_nil {p : Char → Bool} {s : List Char} (h : s.dropWhile p ≠ []) : ∃ c ∈ s, p c = false := by
  induction s with
  | nil => exact absurd rfl h
  | cons d s ih =>
    cases hd : p d with
    | true =>
      rw [List.dropWhile_cons_of_pos hd] at h
      obtain ⟨c, hmem, hc⟩ := ih h
      exact ⟨c, List.mem_cons_of_mem d hmem, hc⟩
    | false => exact ⟨d, List.mem_cons_self, hd⟩

/-- What is no white space is kept. -/
theorem mem_trim {s : List Char} {c : Char} (h : c ∈ s) (hc : isWhiteSpace c = false) : c ∈ trim s :=
  List.mem_reverse.mpr (mem_dropWhile_of_not (List.mem_reverse.mpr (mem_dropWhile_of_not h hc)) hc)

theorem exists_of_trim_ne_nil {s : List Char} (h : trim s ≠ []) : ∃ c ∈ s, isWhiteSpace c = false := by
  apply exists_of_dropWhile_ne_nil
  intro hnil
  apply h
  rw [trim, hnil]
  rfl

theorem trim_eq_nil_iff {s : List Char} : trim s = [] ↔ ∀ c ∈ s, isWhiteSpace c = true := by
  constructor
  · intro h c hc
    by_contra hnot
    have hmem := mem_trim hc (Bool.eq_false_iff.mpr hnot)
    rw [h] at hmem
    exact absurd hmem List.not_mem_nil
  · intro h
    by_contra hne
    obtain ⟨c, hc, hnot⟩ := exists_of_trim_ne_nil hne
    exact absurd (hnot.symm.trans (h c hc)) Bool.false_ne_true

/-- `str::parse::<u32>`: an optional plus sign, then at least one decimal digit, no overflow. -/
def parseU32 (s : List Char) : Option ℕ :=
  let digits := match s with
    | '+' :: rest => rest
    | _ => s
  if digits ≠ [] ∧ digits.all Char.isDigit then
    let n := Nat.ofDigitChars 10 digits 0
    if n < u32Size then some n else none
  else none

/-- The decimal digits of a number, as `Display` prints them. -/
def decimal (n : ℕ) : List Char := Nat.toDigits 10 n

theorem isDigit_of_mem_decimal {n : ℕ} {c : Char} (h : c ∈ decimal n) : c.isDigit = true :=
  Nat.isDigit_of_mem_toDigits (by decide) (by decide) h

/-- A character that is not a digit does not occur in a printed number. -/
theorem notMem_decimal {n : ℕ} {c : Char} (hc : c.isDigit = false) : c ∉ decimal n := by
  intro h
  rw [isDigit_of_mem_decimal h] at hc
  exact absurd hc (by decide)

/-- The printable ASCII characters other than the space are no white space. -/
theorem not_isWhiteSpace_of_printable {c : Char} (hlo : 33 ≤ c.toNat) (hhi : c.toNat ≤ 126) :
    isWhiteSpace c = false := by
  simp only [isWhiteSpace, Bool.or_eq_false_iff, Bool.and_eq_false_iff, decide_eq_false_iff_not,
    beq_eq_false_iff_ne]
  omega

theorem not_isWhiteSpace_of_isDigit {c : Char} (h : c.isDigit = true) :
    isWhiteSpace c = false := by
  simp only [Char.isDigit, Bool.and_eq_true, decide_eq_true_eq] at h
  have hlo : 48 ≤ c.toNat := h.1
  have hhi : c.toNat ≤ 57 := h.2
  exact not_isWhiteSpace_of_printable (by omega) (by omega)

theorem trim_decimal (n : ℕ) : trim (decimal n) = decimal n :=
  trim_of_forall_not fun _ hc => not_isWhiteSpace_of_isDigit (isDigit_of_mem_decimal hc)

/-- Printing and parsing a 32-bit number is the identity. -/
theorem parseU32_decimal {n : ℕ} (hn : n < u32Size) : parseU32 (decimal n) = some n := by
  have hplus : '+' ∉ decimal n := notMem_decimal (by decide)
  have hdigits : (decimal n).all Char.isDigit = true :=
    List.all_eq_true.mpr fun _ hc => isDigit_of_mem_decimal hc
  have hne : decimal n ≠ [] := Nat.toDigits_ne_nil
  have hmatch : (match decimal n with
      | '+' :: rest => rest
      | _ => decimal n) = decimal n := by
    split
    · rename_i rest heq
      rw [heq] at hplus
      exact absurd (by simp) hplus
    · rfl
  have hval : Nat.ofDigitChars 10 (decimal n) 0 = n := Nat.ofDigitChars_ten_toDigits
  simp only [parseU32, hmatch]
  rw [if_pos ⟨hne, hdigits⟩, hval, if_pos hn]

/-- `str::splitn` at a character: at most `n` parts, and what is left in the last of them. -/
def splitn : ℕ → Char → List Char → List (List Char)
  | 0, _, _ => []
  | 1, _, s => [s]
  | n + 2, c, s =>
    match splitOnce [c] s with
    | none => [s]
    | some (pre, post) => pre :: splitn (n + 1) c post

/-- A part that does not contain the separator is read back. -/
theorem splitn_append {c : Char} {pre : List Char} (hc : c ∉ pre) (n : ℕ) (post : List Char) :
    splitn (n + 2) c (pre ++ c :: post) = pre :: splitn (n + 1) c post := by
  have hsplit : splitOnce [c] (pre ++ c :: post) = some (pre, post) := by
    have happ : pre ++ c :: post = pre ++ [c] ++ post := by simp
    rw [happ, splitOnce_append hc]
  rw [splitn, hsplit]

/-- There is one part more than there are separators, up to the limit. -/
theorem length_splitn (n : ℕ) (c : Char) (s : List Char) :
    (splitn (n + 1) c s).length = min n (s.count c) + 1 := by
  induction n generalizing s with
  | zero => simp [splitn]
  | succ n ih =>
    by_cases hc : c ∈ s
    · obtain ⟨pre, post, rfl, hpre⟩ := List.eq_append_cons_of_mem hc
      rw [splitn_append hpre, List.length_cons, ih, List.count_append, List.count_eq_zero_of_not_mem hpre,
        List.count_cons_self]
      omega
    · rw [splitn, splitOnce_eq_none hc, List.count_eq_zero_of_not_mem hc]
      simp

/-- Only the last part may contain the separator. -/
theorem notMem_of_mem_dropLast_splitn {n : ℕ} {c : Char} {s part : List Char} (h : part ∈ (splitn n c s).dropLast) : c ∉ part := by
  induction n, c, s using splitn.induct with
  | case1 c s => simp [splitn] at h
  | case2 c s => simp [splitn] at h
  | case3 n c s hnone => simp [splitn, hnone] at h
  | case4 n c s pre post hsome ih =>
    have hne : splitn (n + 1) c post ≠ [] := by
      rw [← List.length_pos_iff, length_splitn]
      omega
    rw [splitn, hsome, List.dropLast_cons_of_ne_nil hne] at h
    rcases List.mem_cons.mp h with rfl | hmem
    · intro hc
      obtain ⟨hs, hmin⟩ := splitOnce_eq_some_iff.mp hsome
      obtain ⟨as, bs, heq, -⟩ := List.eq_append_cons_of_mem hc
      have hle := hmin as (bs ++ [c] ++ post) (by rw [hs, heq]; simp)
      rw [heq, List.length_append, List.length_cons] at hle
      omega
    · exact ih hmem

/-- `str::parse::<i64>`: an optional sign, then at least one decimal digit, no overflow. -/
def parseI64 (s : List Char) : Option ℤ :=
  let (negative, digits) := match s with
    | '+' :: rest => (false, rest)
    | '-' :: rest => (true, rest)
    | _ => (false, s)
  if digits ≠ [] ∧ digits.all Char.isDigit then
    let n : ℤ := Nat.ofDigitChars 10 digits 0
    let value := if negative then -n else n
    if -2 ^ 63 ≤ value ∧ value < 2 ^ 63 then some value else none
  else none

/-- A printed number is parsed if it fits. -/
theorem parseI64_decimal (n : ℕ) : parseI64 (decimal n) = if n < 2 ^ 63 then some (n : ℤ) else none := by
  have hdigits : (decimal n).all Char.isDigit = true :=
    List.all_eq_true.mpr fun _ hc => isDigit_of_mem_decimal hc
  have hne : decimal n ≠ [] := Nat.toDigits_ne_nil
  have hmatch : (match decimal n with
      | '+' :: rest => (false, rest)
      | '-' :: rest => (true, rest)
      | _ => (false, decimal n)) = (false, decimal n) := by
    split
    · rename_i rest heq
      exact absurd (heq ▸ List.mem_cons_self) (notMem_decimal (n := n) (c := '+') (by decide))
    · rename_i rest heq
      exact absurd (heq ▸ List.mem_cons_self) (notMem_decimal (n := n) (c := '-') (by decide))
    · rfl
  have hval : Nat.ofDigitChars 10 (decimal n) 0 = n := Nat.ofDigitChars_ten_toDigits
  simp only [parseI64, hmatch]
  rw [if_pos ⟨hne, hdigits⟩, hval]
  simp only [Bool.false_eq_true, if_false]
  by_cases hn : n < 2 ^ 63
  · rw [if_pos hn, if_pos (by omega)]
  · rw [if_neg hn, if_neg (by omega)]

/-- A UTF-8 sequence that has begun: how many bytes are missing, the bits read so far, and the range
the next byte has to lie in. -/
structure Utf8Pending where
  missing : ℕ
  bits : ℕ
  lower : ℕ
  upper : ℕ

/-- A byte at the start of a sequence: a finished character, or the rest to wait for. -/
def utf8Start (b : ℕ) : List Char × Option Utf8Pending :=
  if b < 0x80 then ([Char.ofNat b], none)
  else if 0xC2 ≤ b ∧ b ≤ 0xDF then ([], some ⟨1, b - 0xC0, 0x80, 0xBF⟩)
  else if 0xE0 ≤ b ∧ b ≤ 0xEF then
    ([], some ⟨2, b - 0xE0, if b = 0xE0 then 0xA0 else 0x80, if b = 0xED then 0x9F else 0xBF⟩)
  else if 0xF0 ≤ b ∧ b ≤ 0xF4 then
    ([], some ⟨3, b - 0xF0, if b = 0xF0 then 0x90 else 0x80, if b = 0xF4 then 0x8F else 0xBF⟩)
  else (['\uFFFD'], none)

/-- The loop of `fromUtf8Lossy`. -/
def utf8LossyFrom : Option Utf8Pending → List UInt8 → List Char
  | none, [] => []
  | some _, [] => ['\uFFFD']
  | none, b :: bs => (utf8Start b.toNat).1 ++ utf8LossyFrom (utf8Start b.toNat).2 bs
  | some p, b :: bs =>
    if p.lower ≤ b.toNat ∧ b.toNat ≤ p.upper then
      let bits := p.bits * 64 + (b.toNat - 0x80)
      if p.missing = 1 then Char.ofNat bits :: utf8LossyFrom none bs
      else utf8LossyFrom (some ⟨p.missing - 1, bits, 0x80, 0xBF⟩) bs
    else
      -- the broken sequence ends before `b`, which starts over
      '\uFFFD' :: (utf8Start b.toNat).1 ++ utf8LossyFrom (utf8Start b.toNat).2 bs

/-- `String::from_utf8_lossy`: each maximal prefix of a broken sequence is replaced by one U+FFFD. -/
def fromUtf8Lossy (bytes : List UInt8) : List Char := utf8LossyFrom none bytes

end Builderbot.Lib.Text
