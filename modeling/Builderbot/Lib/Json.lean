import Mathlib.Data.List.Basic

/-!
# The grammar of JSON

JSON texts as derivations of the JSON grammar, with the white space between tokens as a
parameter: any for a JSON text, none for the compact form that serialisers write.

A scanner that counts brackets outside strings relates the texts of two objects one of which begins
the other: an object is not a strict prefix of another, and no strict prefix of an object is a JSON
text. Where a JSON text ends with an object in compact form, there is only white space before it.
-/

namespace Builderbot.Lib.Json

/-! ## The grammar -/

/-- The white space characters of the grammar. -/
def isWs (c : Char) : Bool := c = ' ' || c = '\t' || c = '\n' || c = '\r'

/-- Any insignificant white space. -/
def Ws (s : List Char) : Prop := ∀ c ∈ s, isWs c = true

/-- No white space. -/
def NoWs (s : List Char) : Prop := s = []

/-- One or more decimal digits. -/
def IsDigits (s : List Char) : Prop := s ≠ [] ∧ ∀ c ∈ s, c.isDigit = true

/-- The integer part of a number has no leading zero. -/
def IsInt (s : List Char) : Prop := IsDigits s ∧ (s.head? = some '0' → s = ['0'])

def IsFraction (s : List Char) : Prop := s = [] ∨ ∃ ds, IsDigits ds ∧ s = '.' :: ds

def IsExponent (s : List Char) : Prop :=
  s = [] ∨ ∃ e sign ds, e ∈ ['e', 'E'] ∧ sign ∈ [[], ['+'], ['-']] ∧ IsDigits ds ∧
    s = e :: (sign ++ ds)

def IsNumber (s : List Char) : Prop :=
  ∃ sign int fraction exponent, sign ∈ [[], ['-']] ∧ IsInt int ∧ IsFraction fraction ∧
    IsExponent exponent ∧ s = sign ++ int ++ fraction ++ exponent

def isHexDigit (c : Char) : Bool :=
  c.isDigit || ('a' ≤ c && c ≤ 'f') || ('A' ≤ c && c ≤ 'F')

/-- What may stand between the quotes of a string. -/
inductive IsChars : List Char → Prop where
  | nil : IsChars []
  | unescaped {c : Char} {s : List Char} : 0x20 ≤ c.toNat → c ≠ '"' → c ≠ '\\' → IsChars s →
      IsChars (c :: s)
  | escaped {c : Char} {s : List Char} : c ∈ ['"', '\\', '/', 'b', 'f', 'n', 'r', 't'] → IsChars s →
      IsChars ('\\' :: c :: s)
  | unicode {h s : List Char} : h.length = 4 → (∀ c ∈ h, isHexDigit c = true) → IsChars s →
      IsChars ('\\' :: 'u' :: (h ++ s))

def IsString (s : List Char) : Prop := ∃ t, IsChars t ∧ s = '"' :: (t ++ ['"'])

/-- The nonterminals: a value, and the non-empty lists inside an object and an array. -/
inductive Sym where
  | value
  | members
  | elements

/-- The texts of a nonterminal, where `W` says which white space may surround a token. -/
inductive Derives (W : List Char → Prop) : Sym → List Char → Prop where
  | null : Derives W .value ['n', 'u', 'l', 'l']
  | true : Derives W .value ['t', 'r', 'u', 'e']
  | false : Derives W .value ['f', 'a', 'l', 's', 'e']
  | number {s : List Char} : IsNumber s → Derives W .value s
  | string {s : List Char} : IsString s → Derives W .value s
  | emptyObject {w : List Char} : W w → Derives W .value ('{' :: (w ++ ['}']))
  | object {s : List Char} : Derives W .members s → Derives W .value ('{' :: (s ++ ['}']))
  | emptyArray {w : List Char} : W w → Derives W .value ('[' :: (w ++ [']']))
  | array {s : List Char} : Derives W .elements s → Derives W .value ('[' :: (s ++ [']']))
  | member {w₁ k w₂ w₃ v w₄ : List Char} : W w₁ → IsString k → W w₂ → W w₃ → Derives W .value v →
      W w₄ → Derives W .members (w₁ ++ k ++ w₂ ++ [':'] ++ w₃ ++ v ++ w₄)
  | consMember {s t : List Char} : Derives W .members s → Derives W .members t →
      Derives W .members (s ++ [','] ++ t)
  | element {w₁ v w₂ : List Char} : W w₁ → Derives W .value v → W w₂ →
      Derives W .elements (w₁ ++ v ++ w₂)
  | consElement {s t : List Char} : Derives W .elements s → Derives W .elements t →
      Derives W .elements (s ++ [','] ++ t)

/-- A JSON text. -/
def IsJson (s : List Char) : Prop :=
  ∃ w v w', Ws w ∧ Derives Ws .value v ∧ Ws w' ∧ s = w ++ v ++ w'

/-- An object in compact form. -/
def IsCompactObject (s : List Char) : Prop := Derives NoWs .value s ∧ s.head? = some '{'

variable {s : List Char} {x : Sym}

theorem Derives.mono {W W' : List Char → Prop} (hW : ∀ w, W w → W' w)
    (h : Derives W x s) : Derives W' x s := by
  induction h with
  | null => exact .null
  | true => exact .true
  | false => exact .false
  | number h => exact .number h
  | string h => exact .string h
  | emptyObject h => exact .emptyObject (hW _ h)
  | object _ ih => exact .object ih
  | emptyArray h => exact .emptyArray (hW _ h)
  | array _ ih => exact .array ih
  | member h₁ hk h₂ h₃ _ h₄ ih => exact .member (hW _ h₁) hk (hW _ h₂) (hW _ h₃) ih (hW _ h₄)
  | consMember _ _ ih₁ ih₂ => exact .consMember ih₁ ih₂
  | element h₁ _ h₂ ih => exact .element (hW _ h₁) ih (hW _ h₂)
  | consElement _ _ ih₁ ih₂ => exact .consElement ih₁ ih₂

/-- What holds of the tokens and is kept by juxtaposition and brackets holds of every derived text. -/
theorem Derives.text_induction {W : List Char → Prop} {P : List Char → Prop}
    (happend : ∀ s t, P s → P t → P (s ++ t)) (hws : ∀ w, W w → P w)
    (hstring : ∀ s, IsString s → P s) (hnumber : ∀ s, IsNumber s → P s)
    (hword : ∀ w ∈ [['n', 'u', 'l', 'l'], ['t', 'r', 'u', 'e'], ['f', 'a', 'l', 's', 'e']], P w)
    (hpunctuation : ∀ c ∈ [':', ','], P [c]) (hbraces : ∀ s, P s → P ('{' :: (s ++ ['}'])))
    (hbrackets : ∀ s, P s → P ('[' :: (s ++ [']']))) (h : Derives W x s) :
    P s := by
  have hcolon : P [':'] := hpunctuation ':' (by simp)
  have hcomma : P [','] := hpunctuation ',' (by simp)
  induction h with
  | null => exact hword _ (by simp)
  | true => exact hword _ (by simp)
  | false => exact hword _ (by simp)
  | number h => exact hnumber _ h
  | string h => exact hstring _ h
  | emptyObject h => exact hbraces _ (hws _ h)
  | object _ ih => exact hbraces _ ih
  | emptyArray h => exact hbrackets _ (hws _ h)
  | array _ ih => exact hbrackets _ ih
  | member h₁ hk h₂ h₃ _ h₄ ih =>
    have hkey := happend _ _ (happend _ _ (happend _ _ (hws _ h₁) (hstring _ hk)) (hws _ h₂)) hcolon
    exact happend _ _ (happend _ _ (happend _ _ hkey (hws _ h₃)) ih) (hws _ h₄)
  | consMember _ _ ih₁ ih₂ => exact happend _ _ (happend _ _ ih₁ hcomma) ih₂
  | element h₁ _ h₂ ih => exact happend _ _ (happend _ _ (hws _ h₁) ih) (hws _ h₂)
  | consElement _ _ ih₁ ih₂ => exact happend _ _ (happend _ _ ih₁ hcomma) ih₂

variable {w : List Char}

theorem ws_of_noWs (h : NoWs w) : Ws w := by
  rw [h]
  exact fun c hc => absurd hc List.not_mem_nil

/-- A compact object is a JSON text. -/
theorem IsCompactObject.isJson (h : IsCompactObject s) : IsJson s :=
  ⟨[], s, [], ws_of_noWs rfl, h.1.mono fun _ => ws_of_noWs, ws_of_noWs rfl, by simp⟩

/-! ## The scanner -/

/-- Where the scanner stands: outside a string, in one, or after a backslash in one. -/
inductive Mode where
  | outside
  | string
  | escape
deriving DecidableEq

/-- One character of the scanner: `depth` counts the brackets that were opened since it started, and
the scanner fails at a bracket that closes one opened before. -/
def scan (st : ℕ × Mode) (c : Char) : Option (ℕ × Mode) :=
  match st.2 with
  | .outside =>
    if c = '{' ∨ c = '[' then some (st.1 + 1, .outside)
    else if c = '}' ∨ c = ']' then if st.1 = 0 then none else some (st.1 - 1, .outside)
    else if c = '"' then some (st.1, .string)
    else some st
  | .string =>
    if c = '"' then some (st.1, .outside) else if c = '\\' then some (st.1, .escape) else some st
  | .escape => some (st.1, .string)

/-- The scanner over a text. -/
def scanAll (st : ℕ × Mode) (s : List Char) : Option (ℕ × Mode) := s.foldlM scan st

theorem scanAll_append (st : ℕ × Mode) (s t : List Char) :
    scanAll st (s ++ t) = (scanAll st s).bind fun st' => scanAll st' t :=
  List.foldlM_append

/-- The scanner passes over the text and is where it was. -/
def Neutral (s : List Char) : Prop := ∀ d, scanAll (d, .outside) s = some (d, .outside)

variable {t : List Char}

/-- Two neutral texts make one. -/
theorem Neutral.append (hs : Neutral s) (ht : Neutral t) : Neutral (s ++ t) := by
  intro d
  rw [scanAll_append, hs d]
  exact ht d

/-- Characters that are neither brackets nor quotes. -/
def isPlain (c : Char) : Bool := c ∉ ['{', '}', '[', ']', '"']

/-- A text without brackets and quotes is neutral. -/
theorem Neutral.of_plain (h : ∀ c ∈ s, isPlain c = true) : Neutral s := by
  intro d
  induction s with
  | nil => rfl
  | cons c s ih =>
    obtain ⟨hc, hs⟩ := List.forall_mem_cons.mp h
    have hstep : scan (d, .outside) c = some (d, .outside) := by
      simp only [isPlain, List.mem_cons, List.not_mem_nil, or_false, not_or, decide_eq_true_eq] at hc
      simp [scan, hc]
    change (scan (d, .outside) c).bind _ = _
    rw [hstep]
    exact ih hs

variable {c : Char}

/-- A pair of brackets around a neutral text. -/
theorem Neutral.bracket (hs : Neutral s) {o : Char} (ho : o = '{' ∨ o = '[')
    (hc : c = '}' ∨ c = ']') : Neutral (o :: (s ++ [c])) := by
  intro d
  have hopen : scan (d, .outside) o = some (d + 1, .outside) := by simp [scan, ho]
  have hclose : scan (d + 1, .outside) c = some (d, .outside) := by
    have hne : ¬(c = '{' ∨ c = '[') := by
      rcases hc with rfl | rfl <;> decide
    simp [scan, hne, hc]
  change (scan (d, .outside) o).bind (fun st => scanAll st (s ++ [c])) = _
  rw [hopen, Option.bind_some, scanAll_append, hs (d + 1)]
  change (scan (d + 1, .outside) c).bind _ = _
  rw [hclose]
  rfl

/-! ## Texts of the grammar are neutral -/

theorem isPlain_of_isDigit (h : c.isDigit = true) : isPlain c = true := by
  have hlist : ∀ d ∈ ['{', '}', '[', ']', '"'], d.isDigit = false := by simp
  simp only [isPlain, decide_eq_true_eq]
  intro hmem
  rw [hlist c hmem] at h
  exact absurd h nofun

theorem isPlain_of_isWs (h : isWs c = true) : isPlain c = true := by
  have hlist : ∀ d ∈ ['{', '}', '[', ']', '"'], isWs d = false := by simp [isWs]
  simp only [isPlain, decide_eq_true_eq]
  intro hmem
  rw [hlist c hmem] at h
  exact absurd h nofun

theorem Ws.neutral (h : Ws w) : Neutral w :=
  Neutral.of_plain fun c hc => isPlain_of_isWs (h c hc)

theorem Neutral.singleton (h : isPlain c = true) : Neutral [c] :=
  Neutral.of_plain fun d hd => by rwa [List.mem_singleton.mp hd]

/-- The characters of a number. -/
theorem IsNumber.chars (h : IsNumber s) : ∀ c ∈ s, c.isDigit = true ∨ c ∈ ['-', '+', '.', 'e', 'E'] := by
  obtain ⟨sign, int, fraction, exponent, hsign, hint, hfraction, hexponent, rfl⟩ := h
  intro c hc
  simp only [List.mem_append] at hc
  rcases hc with ((hc | hc) | hc) | hc
  · rcases List.mem_pair.mp hsign with rfl | rfl
    · exact absurd hc List.not_mem_nil
    · exact .inr (by simp [List.mem_singleton.mp hc])
  · exact .inl (hint.1.2 c hc)
  · rcases hfraction with rfl | ⟨ds, hds, rfl⟩
    · exact absurd hc List.not_mem_nil
    · rcases List.mem_cons.mp hc with rfl | hc
      · exact .inr (by decide)
      · exact .inl (hds.2 c hc)
  · rcases hexponent with rfl | ⟨e, sg, ds, he, hsg, hds, rfl⟩
    · exact absurd hc List.not_mem_nil
    · rcases List.mem_cons.mp hc with rfl | hc
      · rcases List.mem_pair.mp he with rfl | rfl <;> exact .inr (by decide)
      · rcases List.mem_append.mp hc with hc | hc
        · simp only [List.mem_cons, List.not_mem_nil, or_false] at hsg
          rcases hsg with rfl | rfl | rfl
          · exact absurd hc List.not_mem_nil
          · exact .inr (by simp [List.mem_singleton.mp hc])
          · exact .inr (by simp [List.mem_singleton.mp hc])
        · exact .inl (hds.2 c hc)

theorem IsNumber.plain (h : IsNumber s) : ∀ c ∈ s, isPlain c = true := by
  have hlist : ∀ d ∈ ['-', '+', '.', 'e', 'E'], isPlain d = true := by simp [isPlain]
  intro c hc
  rcases h.chars c hc with hdigit | hother
  · exact isPlain_of_isDigit hdigit
  · exact hlist c hother

/-- Inside a string the scanner stays inside it. -/
theorem IsChars.scanAll (h : IsChars t) (d : ℕ) : scanAll (d, .string) t = some (d, .string) := by
  induction h with
  | nil => rfl
  | @unescaped c s _ hquote hback _ ih =>
    have hstep : scan (d, .string) c = some (d, .string) := by simp [scan, hquote, hback]
    change (scan (d, .string) c).bind _ = _
    rw [hstep]
    exact ih
  | escaped _ _ ih => exact ih
  | @unicode h s hlen hhex _ ih =>
    -- no hexadecimal digit is a quote or a backslash
    have hskip : Json.scanAll (d, .string) h = some (d, .string) := by
      clear ih hlen
      induction h with
      | nil => rfl
      | cons c h ih =>
        obtain ⟨hc, hrest⟩ := List.forall_mem_cons.mp hhex
        have hstep : scan (d, .string) c = some (d, .string) := by
          have hquote : c ≠ '"' := by
            rintro rfl
            exact absurd hc (by decide)
          have hback : c ≠ '\\' := by
            rintro rfl
            exact absurd hc (by decide)
          simp [scan, hquote, hback]
        change (scan (d, .string) c).bind _ = _
        rw [hstep]
        exact ih hrest
    change Json.scanAll (d, .string) (h ++ s) = _
    rw [scanAll_append, hskip]
    exact ih

/-- The quotes of a string leave the scanner where it was. -/
theorem IsString.neutral (h : IsString s) : Neutral s := by
  obtain ⟨t, ht, rfl⟩ := h
  intro d
  change Json.scanAll (d, .string) (t ++ ['"']) = _
  rw [scanAll_append, ht.scanAll d]
  rfl

/-- Every value is neutral: its brackets close. -/
theorem Derives.neutral (h : Derives Ws x s) : Neutral s := by
  refine h.text_induction (fun _ _ => Neutral.append) (fun _ => Ws.neutral)
    (fun _ => IsString.neutral) (fun _ h => .of_plain h.plain) ?_ ?_
    (fun _ h => h.bracket (.inl rfl) (.inl rfl)) (fun _ h => h.bracket (.inr rfl) (.inr rfl))
  · have hplain : ∀ w ∈ [['n', 'u', 'l', 'l'], ['t', 'r', 'u', 'e'], ['f', 'a', 'l', 's', 'e']],
        ∀ c ∈ w, isPlain c = Bool.true := by simp [isPlain]
    exact fun w hw => .of_plain (hplain w hw)
  · have hplain : ∀ c ∈ [':', ','], isPlain c = Bool.true := by simp [isPlain]
    exact fun c hc => .singleton (hplain c hc)

/-- A value that begins with a brace is a neutral text between braces. -/
theorem Derives.object_inner {v : List Char} (h : Derives Ws .value v) (hhead : v.head? = some '{') :
    ∃ s, Neutral s ∧ v = '{' :: (s ++ ['}']) := by
  cases h with
  | emptyObject h => exact ⟨_, h.neutral, rfl⟩
  | object h => exact ⟨_, h.neutral, rfl⟩
  | null | true | false => exact absurd hhead (by decide)
  | emptyArray h => exact absurd hhead (by simp)
  | array h => exact absurd hhead (by simp)
  | string h =>
    obtain ⟨t, -, rfl⟩ := h
    exact absurd hhead (by simp)
  | number h =>
    have hplain := h.plain '{' (List.mem_of_head? hhead)
    exact absurd hplain (by decide)

/-- No strict prefix of a compact object, other than the empty one, is a JSON text. -/
theorem IsCompactObject.prefix_not_isJson {p : List Char} (h : IsCompactObject (p ++ t))
    (hp : p ≠ []) (ht : t ≠ []) : ¬ IsJson p := by
  obtain ⟨c, q, rfl⟩ := List.exists_cons_of_ne_nil hp
  obtain ⟨s, hs, heq⟩ := (h.1.mono fun _ => ws_of_noWs).object_inner h.2
  rw [List.cons_append, List.cons.injEq] at heq
  obtain ⟨rfl, hqt⟩ := heq
  -- the scanner passes over the prefix of the inner text
  have hscan : (scanAll (0, .outside) q).isSome = true := by
    obtain ⟨t', x, rfl⟩ := (List.eq_nil_or_concat t).resolve_left ht
    rw [List.concat_eq_append, ← List.append_assoc] at hqt
    have hinner := hs 0
    rw [← (List.append_inj' hqt rfl).1, scanAll_append, Option.bind_eq_some_iff] at hinner
    obtain ⟨st, hst, -⟩ := hinner
    rw [hst]
    rfl
  have hbrace : ∀ w u, Ws w → '{' :: q = w ++ u → w = [] := by
    intro w u hw heq
    cases w with
    | nil => rfl
    | cons x w =>
      rw [List.cons_append, List.cons.injEq] at heq
      exact absurd (hw x List.mem_cons_self) (by rw [← heq.1]; decide)
  rintro ⟨w, v, w', hw, hv, hw', heq⟩
  obtain rfl := hbrace w (v ++ w') hw (by rw [heq, List.append_assoc])
  rw [List.nil_append] at heq
  have hhead : v.head? = some '{' := by
    cases v with
    | nil => exact absurd (hbrace w' [] hw' (by simpa using heq)) (by rintro rfl; simp at heq)
    | cons x v => exact congrArg some (List.cons.inj heq).1.symm
  -- a JSON text that begins with a brace closes it, where the scanner fails
  obtain ⟨s', hs', rfl⟩ := hv.object_inner hhead
  rw [List.cons_append, List.cons.injEq] at heq
  rw [heq.2, List.append_assoc, scanAll_append, hs' 0] at hscan
  exact absurd hscan (by simp [scanAll, scan])

/-! ## Compact texts have no control characters -/

/-- No character is a control character. -/
def NoControl (s : List Char) : Prop := ∀ c ∈ s, 0x20 ≤ c.toNat

theorem NoControl.append (hs : NoControl s) (ht : NoControl t) : NoControl (s ++ t) :=
  List.forall_mem_append.mpr ⟨hs, ht⟩

theorem NoControl.cons (hc : 0x20 ≤ c.toNat) (hs : NoControl s) : NoControl (c :: s) :=
  List.forall_mem_cons.mpr ⟨hc, hs⟩

theorem NoControl.singleton (h : 0x20 ≤ c.toNat) : NoControl [c] :=
  .cons h fun _ hc => absurd hc List.not_mem_nil

theorem toNat_of_isDigit (h : c.isDigit = true) : 0x20 ≤ c.toNat := by
  have hlo : 48 ≤ c.toNat := by
    simp only [Char.isDigit, Bool.and_eq_true, decide_eq_true_eq] at h
    exact h.1
  omega

theorem toNat_of_isHexDigit (h : isHexDigit c = true) : 0x20 ≤ c.toNat := by
  simp only [isHexDigit, Bool.or_eq_true, Bool.and_eq_true, decide_eq_true_eq] at h
  rcases h with (hdigit | hlower) | hupper
  · exact toNat_of_isDigit hdigit
  · have hle : 97 ≤ c.toNat := hlower.1
    omega
  · have hle : 65 ≤ c.toNat := hupper.1
    omega

theorem IsNumber.noControl (h : IsNumber s) : NoControl s := by
  have hlist : ∀ d ∈ ['-', '+', '.', 'e', 'E'], 0x20 ≤ d.toNat := by simp
  intro c hc
  rcases h.chars c hc with hdigit | hother
  · exact toNat_of_isDigit hdigit
  · exact hlist c hother

/-- Control characters have to be escaped in a string. -/
theorem IsChars.noControl (h : IsChars s) : NoControl s := by
  have hlist : ∀ d ∈ ['"', '\\', '/', 'b', 'f', 'n', 'r', 't'], 0x20 ≤ d.toNat := by simp
  induction h with
  | nil => exact fun c hc => absurd hc List.not_mem_nil
  | unescaped hc _ _ _ ih => exact .cons hc ih
  | escaped hc _ ih => exact .cons (by decide) (.cons (hlist _ hc) ih)
  | unicode _ hhex _ ih =>
    have hdigits : NoControl _ := fun c hc => toNat_of_isHexDigit (hhex c hc)
    exact .cons (by decide) (.cons (by decide) (hdigits.append ih))

theorem IsString.noControl (h : IsString s) : NoControl s := by
  obtain ⟨t, ht, rfl⟩ := h
  exact .cons (by decide) (ht.noControl.append (.singleton (by decide)))

theorem NoWs.noControl (h : NoWs w) : NoControl w := by
  rw [h]
  exact fun c hc => absurd hc List.not_mem_nil

/-- A compact value has no control characters. -/
theorem Derives.noControl (h : Derives NoWs x s) : NoControl s := by
  have hbetween : ∀ {o c : Char}, 0x20 ≤ o.toNat → 0x20 ≤ c.toNat → ∀ s, NoControl s →
      NoControl (o :: (s ++ [c])) := fun ho hc s hs => .cons ho (hs.append (.singleton hc))
  refine h.text_induction (fun _ _ => NoControl.append) (fun _ => NoWs.noControl)
    (fun _ => IsString.noControl) (fun _ => IsNumber.noControl) ?_ ?_
    (hbetween (by decide) (by decide)) (hbetween (by decide) (by decide))
  · exact (by simp : ∀ w ∈ [['n', 'u', 'l', 'l'], ['t', 'r', 'u', 'e'], ['f', 'a', 'l', 's', 'e']],
      ∀ c ∈ w, 0x20 ≤ c.toNat)
  · have hpunctuation : ∀ c ∈ [':', ','], 0x20 ≤ c.toNat := by simp
    exact fun c hc => .singleton (hpunctuation c hc)

/-! ## Where a value may end in an object -/

/-- The mode of the scanner, which fails at a backslash outside a string. -/
def scanMode : Mode → Char → Option Mode
  | .outside, c => if c = '"' then some .string else if c = '\\' then none else some .outside
  | .string, c => if c = '"' then some .outside else if c = '\\' then some .escape else some .string
  | .escape, _ => some .string

/-- The text begins and ends outside of strings, and backslashes are inside. -/
def Quoted (s : List Char) : Prop := s.foldlM scanMode .outside = some .outside

/-- Two texts with closed strings make one. -/
theorem Quoted.append (hs : Quoted s) (ht : Quoted t) : Quoted (s ++ t) := by
  rw [Quoted, List.foldlM_append, hs]
  exact ht

theorem Quoted.of_bare (h : ∀ c ∈ s, c ≠ '"' ∧ c ≠ '\\') : Quoted s := by
  induction s with
  | nil => rfl
  | cons c s ih =>
    obtain ⟨⟨hquote, hback⟩, hs⟩ := List.forall_mem_cons.mp h
    have hstep : scanMode .outside c = some .outside := by simp [scanMode, hquote, hback]
    rw [Quoted, List.foldlM_cons, hstep]
    exact ih hs

theorem IsChars.foldlM_scanMode (h : IsChars t) : t.foldlM scanMode .string = some .string := by
  induction h with
  | nil => rfl
  | @unescaped c s _ hquote hback _ ih =>
    have hstep : scanMode .string c = some .string := by simp [scanMode, hquote, hback]
    rw [List.foldlM_cons, hstep]
    exact ih
  | escaped _ _ ih => exact ih
  | @unicode h s hlen hhex _ ih =>
    have hskip : h.foldlM scanMode .string = some .string := by
      clear ih hlen
      induction h with
      | nil => rfl
      | cons c h ih =>
        obtain ⟨hc, hrest⟩ := List.forall_mem_cons.mp hhex
        have hstep : scanMode .string c = some .string := by
          have hquote : c ≠ '"' := by
            rintro rfl
            exact absurd hc (by decide)
          have hback : c ≠ '\\' := by
            rintro rfl
            exact absurd hc (by decide)
          simp [scanMode, hquote, hback]
        rw [List.foldlM_cons, hstep]
        exact ih hrest
    change (h ++ s).foldlM scanMode .string = _
    rw [List.foldlM_append, hskip]
    exact ih

/-- A string closes its quotes. -/
theorem IsString.quoted (h : IsString s) : Quoted s := by
  obtain ⟨t, ht, rfl⟩ := h
  change (t ++ ['"']).foldlM scanMode .string = _
  rw [List.foldlM_append, ht.foldlM_scanMode]
  rfl

theorem isBare_of_isWs (h : isWs c = true) : c ≠ '"' ∧ c ≠ '\\' := by
  refine ⟨?_, ?_⟩
  · rintro rfl
    exact absurd h (by decide)
  · rintro rfl
    exact absurd h (by decide)

theorem IsNumber.quoted (h : IsNumber s) : Quoted s := by
  have hlist : ∀ d ∈ ['-', '+', '.', 'e', 'E'], d ≠ '"' ∧ d ≠ '\\' := by simp
  refine .of_bare fun c hc => ?_
  rcases h.chars c hc with hdigit | hother
  · refine ⟨?_, ?_⟩
    · rintro rfl
      exact absurd hdigit (by decide)
    · rintro rfl
      exact absurd hdigit (by decide)
  · exact hlist c hother

/-- Every value closes its strings. -/
theorem Derives.quoted (h : Derives Ws x s) : Quoted s := by
  have hbetween : ∀ {o c : Char}, o ≠ '"' ∧ o ≠ '\\' → c ≠ '"' ∧ c ≠ '\\' → ∀ s, Quoted s → Quoted (o :: (s ++ [c])) := by
    intro o c ho hc s hs
    have hopen : Quoted [o] := .of_bare (List.forall_mem_singleton.mpr ho)
    have hclose : Quoted [c] := .of_bare (List.forall_mem_singleton.mpr hc)
    exact hopen.append (hs.append hclose)
  refine h.text_induction (fun _ _ => Quoted.append) (fun _ hw => .of_bare fun c hc => isBare_of_isWs (hw c hc))
    (fun _ => IsString.quoted) (fun _ => IsNumber.quoted) ?_ ?_ (hbetween (by decide) (by decide))
    (hbetween (by decide) (by decide))
  · have hwords : ∀ w ∈ [['n', 'u', 'l', 'l'], ['t', 'r', 'u', 'e'], ['f', 'a', 'l', 's', 'e']],
        ∀ c ∈ w, c ≠ '"' ∧ c ≠ '\\' := by simp
    exact fun w hw => .of_bare (hwords w hw)
  · have hpunctuation : ∀ c ∈ [':', ','], c ≠ '"' ∧ c ≠ '\\' := by simp
    exact fun c hc => .of_bare (List.forall_mem_singleton.mpr (hpunctuation c hc))

/-- The two scanners agree on the mode. -/
theorem scanMode_eq_of_scanAll {d d' : ℕ} {m m' m'' : Mode} (h : scanAll (d, m) s = some (d', m'))
    (hmode : s.foldlM scanMode m = some m'') : m' = m'' := by
  induction s generalizing d m with
  | nil =>
    cases h
    exact Option.some.inj hmode
  | cons c s ih =>
    rw [scanAll, List.foldlM_cons, Option.bind_eq_bind, Option.bind_eq_some_iff] at h
    rw [List.foldlM_cons, Option.bind_eq_bind, Option.bind_eq_some_iff] at hmode
    obtain ⟨⟨d₁, m₁⟩, hscan, hrest⟩ := h
    obtain ⟨m₂, hscanMode, hrestMode⟩ := hmode
    have heq : m₁ = m₂ := by
      cases m with
      | outside | string | escape =>
        simp only [scan] at hscan
        simp only [scanMode] at hscanMode
        grind
    subst heq
    exact ih hrest hrestMode

/-- One scanner is inside a string where the other is not. -/
def Opposite (m m' : Mode) : Prop := m = .outside ∧ m' = .string ∨ m = .string ∧ m' = .outside

theorem Opposite.foldlM {m m' n n' : Mode} (h : Opposite m m') (hm : s.foldlM scanMode m = some n)
    (hm' : s.foldlM scanMode m' = some n') : Opposite n n' := by
  induction s generalizing m m' with
  | nil =>
    obtain rfl := Option.some.inj hm
    obtain rfl := Option.some.inj hm'
    exact h
  | cons c s ih =>
    rw [List.foldlM_cons, Option.bind_eq_bind, Option.bind_eq_some_iff] at hm hm'
    obtain ⟨k, hk, hrest⟩ := hm
    obtain ⟨k', hk', hrest'⟩ := hm'
    refine ih ?_ hrest hrest'
    unfold Opposite
    rcases h with ⟨rfl, rfl⟩ | ⟨rfl, rfl⟩
    · simp only [scanMode] at hk hk'
      grind
    · simp only [scanMode] at hk hk'
      grind

/-- A value that ends with a brace is a neutral text between braces. -/
theorem Derives.object_inner_of_getLast {v : List Char} (h : Derives Ws .value v) (hlast : v.getLast? = some '}') :
    ∃ s, Neutral s ∧ v = '{' :: (s ++ ['}']) := by
  have hends : ∀ (o c : Char) (s : List Char), (o :: (s ++ [c])).getLast? = some c := by
    intro o c s
    rw [← List.cons_append, List.getLast?_concat]
  cases h with
  | emptyObject h => exact ⟨_, h.neutral, rfl⟩
  | object h => exact ⟨_, h.neutral, rfl⟩
  | null => exact absurd hlast (by decide)
  | true => exact absurd hlast (by decide)
  | false => exact absurd hlast (by decide)
  | emptyArray | array => exact absurd ((hends _ _ _).symm.trans hlast) (by decide)
  | string h =>
    obtain ⟨t, -, rfl⟩ := h
    exact absurd ((hends _ _ _).symm.trans hlast) (by decide)
  | number h =>
    have hplain := h.plain '}' (List.mem_of_getLast? hlast)
    exact absurd hplain (by decide)

/-- What stands before a compact object in a JSON text that ends with it is white space. -/
theorem IsCompactObject.ws_of_isJson_append {p o : List Char} (ho : IsCompactObject o) (h : IsJson (p ++ o)) : Ws p := by
  have hderives := ho.1.mono fun _ => ws_of_noWs
  obtain ⟨s, hs, rfl⟩ := hderives.object_inner ho.2
  obtain ⟨w, v, w', hw, hv, hspace, heq⟩ := h
  -- the text ends with the brace, so the value does
  have hlast : (p ++ '{' :: (s ++ ['}'])).getLast? = some '}' := by
    rw [← List.cons_append, ← List.append_assoc, List.getLast?_concat]
  have hnil' : w' = [] := by
    rcases List.eq_nil_or_concat w' with hnil | ⟨u, c, rfl⟩
    · exact hnil
    · rw [heq, List.concat_eq_append, ← List.append_assoc, List.getLast?_concat, Option.some.injEq] at hlast
      subst hlast
      exact absurd (hspace '}' (by simp)) (by decide)
  subst hnil'
  rw [List.append_nil] at heq
  rcases List.append_eq_append_iff.mp heq with ⟨u, hu, -⟩ | ⟨u, hu, huv⟩
  · intro c hc
    exact hw c (hu ▸ List.mem_append_left u hc)
  · cases u with
    | nil =>
      rw [List.append_nil] at hu
      exact hu ▸ hw
    | cons c q =>
      exfalso
      have hvlast : v.getLast? = some '}' := by
        rw [huv, ← List.cons_append, ← List.append_assoc, List.getLast?_concat]
      obtain ⟨s', hs', rfl⟩ := hv.object_inner_of_getLast hvlast
      rw [List.cons_append, List.cons.injEq, ← List.cons_append, ← List.append_assoc] at huv
      obtain ⟨rfl, hinner⟩ := huv
      obtain ⟨rfl, -⟩ := List.append_inj' hinner rfl
      -- the brackets before the object are closed, so it is inside a string
      have hscan := hs' 0
      rw [scanAll_append, Option.bind_eq_some_iff] at hscan
      obtain ⟨⟨d, m⟩, hq, hrest⟩ := hscan
      have hquoted := hv.quoted
      rw [Quoted, ← List.singleton_append, List.foldlM_append] at hquoted
      change ((q ++ '{' :: s) ++ ['}']).foldlM scanMode .outside = some .outside at hquoted
      rw [List.append_assoc, List.foldlM_append, Option.bind_eq_bind, Option.bind_eq_some_iff] at hquoted
      obtain ⟨m', hqmode, hobject⟩ := hquoted
      obtain rfl := scanMode_eq_of_scanAll hq hqmode
      have hself : (s ++ ['}']).foldlM scanMode .outside = some .outside := hderives.quoted
      rw [List.foldlM_append, Option.bind_eq_bind, Option.bind_eq_some_iff] at hself
      obtain ⟨n, hn, hclose⟩ := hself
      have hends : ∀ k : Mode, ['}'].foldlM scanMode k = some .outside → k = .outside := by
        intro k hk
        cases k with
        | outside => rfl
        | string => exact absurd hk (by decide)
        | escape => exact absurd hk (by decide)
      have hstring : (s ++ ['}']).foldlM scanMode .string ≠ some .outside := by
        intro hfrom
        rw [List.foldlM_append, Option.bind_eq_bind, Option.bind_eq_some_iff] at hfrom
        obtain ⟨n', hn', hclose'⟩ := hfrom
        obtain rfl := hends n hclose
        obtain rfl := hends n' hclose'
        have hopposite := Opposite.foldlM (.inl ⟨rfl, rfl⟩) hn hn'
        exact absurd hopposite (by simp [Opposite])
      cases m with
      | outside =>
        have hdepth : scanAll (d, .outside) ('{' :: s) = some (d + 1, .outside) := hs (d + 1)
        rw [hdepth, Option.some.injEq, Prod.mk.injEq] at hrest
        exact absurd hrest.1 (Nat.succ_ne_zero d)
      | string => exact hstring hobject
      | escape => exact hstring hobject

end Builderbot.Lib.Json
