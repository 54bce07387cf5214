import Builderbot.Lib.Json
import Builderbot.Lib.JsonString

/-!
# JSON values

The values of JSON with a writer of their compact texts and a reader. Numbers are a parameter, with the text that
stands for each. What is written for a value whose objects have no name twice is read back as the value.

Two values are the same under a view of the properties of an object when they differ in nothing that the view shows, at
any depth; under the view that looks a name up, the order of properties is all they can differ in.
-/

namespace Builderbot.Lib.JsonValue

open Json (isWs)

inductive Value (N : Type*) where
  | null
  | bool (b : Bool)
  | number (n : N)
  | string (s : List Char)
  | array (items : List (Value N))
  | object (properties : List (List Char × Value N))

/-- A member of an object. -/
abbrev Property (N : Type*) := List Char × Value N

variable {N : Type*}

theorem Value.induction {P : Value N → Prop} (null : P .null) (bool : ∀ b, P (.bool b)) (number : ∀ n, P (.number n))
    (string : ∀ s, P (.string s)) (array : ∀ items, (∀ v ∈ items, P v) → P (.array items))
    (object : ∀ properties, (∀ p ∈ properties, P p.2) → P (.object properties)) (v : Value N) : P v :=
  Value.rec (motive_1 := P) (motive_2 := fun items => ∀ v ∈ items, P v)
    (motive_3 := fun properties => ∀ p ∈ properties, P p.2) (motive_4 := fun p => P p.2)
    null bool number string array object
    (fun _ h => absurd h List.not_mem_nil) (fun _ _ hv hrest => List.forall_mem_cons.mpr ⟨hv, hrest⟩)
    (fun _ h => absurd h List.not_mem_nil) (fun _ _ hp hrest => List.forall_mem_cons.mpr ⟨hp, hrest⟩)
    (fun _ _ h => h) v

/-- No object has a name twice. -/
inductive Value.WellFormed : Value N → Prop where
  | null : WellFormed .null
  | bool (b : Bool) : WellFormed (.bool b)
  | number (n : N) : WellFormed (.number n)
  | string (s : List Char) : WellFormed (.string s)
  | array {items : List (Value N)} : (∀ v ∈ items, WellFormed v) → WellFormed (.array items)
  | object {properties : List (Property N)} : (properties.map Prod.fst).Nodup → (∀ p ∈ properties, WellFormed p.2) →
      WellFormed (.object properties)

/-! ## Sameness under a view -/

section SameBy

variable (view : List (Property N) → List Char → Option (Value N))

/-- The values agree in all that the view shows of an object. -/
inductive SameBy : Value N → Value N → Prop where
  | null : SameBy .null .null
  | bool (b : Bool) : SameBy (.bool b) (.bool b)
  | number (n : N) : SameBy (.number n) (.number n)
  | string (s : List Char) : SameBy (.string s) (.string s)
  | array {xs ys : List (Value N)} : xs.length = ys.length →
      (∀ (i : ℕ) (x y : Value N), xs[i]? = some x → ys[i]? = some y → SameBy x y) → SameBy (.array xs) (.array ys)
  | object {ps qs : List (Property N)} : (∀ name, (view ps name).isSome = (view qs name).isSome) →
      (∀ name v w, view ps name = some v → view qs name = some w → SameBy v w) → SameBy (.object ps) (.object qs)

/-- The values are equal up to the order of properties. -/
abbrev Same : Value N → Value N → Prop := SameBy fun ps name => ps.lookup name

end SameBy

/-! ## Texts -/

/-- The texts of numbers, and the number that is read from a text. -/
structure NumberFormat (N : Type*) where
  write : N → List Char
  read : List Char → Option N
  isNumber : ∀ n, Json.IsNumber (write n)
  read_write : ∀ n, read (write n) = some n

variable (F : NumberFormat N)

mutual

/-- The compact text of a value. -/
def write : Value N → List Char
  | .null => "null".toList
  | .bool true => "true".toList
  | .bool false => "false".toList
  | .number n => F.write n
  | .string s => JsonString.quote s
  | .array [] => "[]".toList
  | .array (v :: items) => '[' :: (write v ++ writeItems items ++ [']'])
  | .object [] => "{}".toList
  | .object ((name, v) :: properties) =>
    '{' :: (JsonString.quote name ++ ':' :: write v ++ writeProperties properties ++ ['}'])

/-- The items after the first. -/
def writeItems : List (Value N) → List Char
  | [] => []
  | v :: items => ',' :: write v ++ writeItems items

/-- The members after the first. -/
def writeProperties : List (Property N) → List Char
  | [] => []
  | (name, v) :: properties => ',' :: JsonString.quote name ++ ':' :: write v ++ writeProperties properties

end

/-- Pass over white space. -/
def skipWs (s : List Char) : List Char := s.dropWhile isWs

/-- What follows a character, with white space before it. -/
def token (c : Char) (s : List Char) : Option (List Char) :=
  match skipWs s with
  | [] => none
  | d :: s => if d = c then some s else none

/-- What follows a word. -/
def word (w s : List Char) : Option (List Char) := if w <+: s then some (s.drop w.length) else none

def isNumberChar (c : Char) : Bool := c.isDigit || c ∈ ['-', '+', '.', 'e', 'E']

/-- The string after an opening quote. Control characters have to be escaped. -/
def readString (s : List Char) : Option (List Char × List Char) :=
  (JsonString.readFrom .plain s).bind fun r =>
    if (s.take (s.length - r.2.length)).all fun c => 0x20 ≤ c.toNat then some r else none

/-- A name with the colon after it. -/
def readName (s : List Char) : Option (List Char × List Char) :=
  (token '"' s).bind fun s => (readString s).bind fun r => (token ':' r.2).map fun s => (r.1, s)

/-- Assign to a property. -/
def setProperty (ps : List (Property N)) (name : List Char) (v : Value N) : List (Property N) :=
  if name ∈ ps.map Prod.fst then ps.map fun p => if p.1 = name then (name, v) else p else ps ++ [(name, v)]

mutual

/-- Read a value at the beginning of a text. Every call uses one unit of fuel. -/
def readValue : ℕ → List Char → Option (Value N × List Char)
  | 0, _ => none
  | fuel + 1, s =>
    match skipWs s with
    | [] => none
    | c :: s =>
      if c = '"' then (readString s).map fun r => (.string r.1, r.2)
      else if c = '[' then
        match token ']' s with
        | some s => some (.array [], s)
        | none => (readValue fuel s).bind fun r => readItems fuel [r.1] r.2
      else if c = '{' then
        match token '}' s with
        | some s => some (.object [], s)
        | none => (readName s).bind fun n => (readValue fuel n.2).bind fun r =>
          readProperties fuel [(n.1, r.1)] r.2
      else if c = 'n' then (word "ull".toList s).map fun s => (.null, s)
      else if c = 't' then (word "rue".toList s).map fun s => (.bool true, s)
      else if c = 'f' then (word "alse".toList s).map fun s => (.bool false, s)
      else (F.read ((c :: s).takeWhile isNumberChar)).map fun n => (.number n, (c :: s).dropWhile isNumberChar)

/-- The rest of an array. -/
def readItems : ℕ → List (Value N) → List Char → Option (Value N × List Char)
  | 0, _, _ => none
  | fuel + 1, items, s =>
    match token ']' s with
    | some s => some (.array items, s)
    | none => (token ',' s).bind fun s => (readValue fuel s).bind fun r => readItems fuel (items ++ [r.1]) r.2

/-- The rest of an object. -/
def readProperties : ℕ → List (Property N) → List Char → Option (Value N × List Char)
  | 0, _, _ => none
  | fuel + 1, ps, s =>
    match token '}' s with
    | some s => some (.object ps, s)
    | none => (token ',' s).bind fun s => (readName s).bind fun n => (readValue fuel n.2).bind fun r =>
      readProperties fuel (setProperty ps n.1 r.1) r.2

end

/-- The value of a text; `none` for a text that is not JSON. -/
def read (s : List Char) : Option (Value N) :=
  (readValue F (s.length + 1) s).bind fun r => if skipWs r.2 = [] then some r.1 else none

/-! ## Reading back -/

section Tokens

variable {c d : Char} {s rest : List Char}

theorem skipWs_cons (hd : isWs d = false) : skipWs (d :: s) = d :: s := by
  rw [skipWs, List.dropWhile_cons_of_neg (by rw [hd]; exact Bool.false_ne_true)]

theorem token_cons (hd : isWs d = false) : token c (d :: s) = if d = c then some s else none := by
  rw [token, skipWs_cons hd]

theorem token_self (hc : isWs c = false) : token c (c :: s) = some s := by
  rw [token_cons hc, if_pos rfl]

theorem token_of_ne (hd : isWs d = false) (hne : d ≠ c) : token c (d :: s) = none := by
  rw [token_cons hd, if_neg hne]

/-- What is written for a character has no control characters. -/
theorem le_toNat_of_mem_escapeChar (h : d ∈ JsonString.escapeChar c) : 0x20 ≤ d.toNat := by
  have hdigit : ∀ n < 16, 0x20 ≤ (Nat.digitChar n).toNat := by decide
  have hpair : ∀ a b : Char, 0x20 ≤ a.toNat → 0x20 ≤ b.toNat → d ∈ [a, b] → 0x20 ≤ d.toNat := by
    intro a b ha hb h
    rcases List.mem_pair.mp h with rfl | rfl
    · exact ha
    · exact hb
  unfold JsonString.escapeChar at h
  -- the two-character escapes
  split at h
  · exact hpair _ _ (by decide) (by decide) h
  split at h
  · exact hpair _ _ (by decide) (by decide) h
  split at h
  · exact hpair _ _ (by decide) (by decide) h
  split at h
  · exact hpair _ _ (by decide) (by decide) h
  split at h
  · exact hpair _ _ (by decide) (by decide) h
  split at h
  · exact hpair _ _ (by decide) (by decide) h
  split at h
  · exact hpair _ _ (by decide) (by decide) h
  split at h
  -- a control character, as six characters
  · simp only [List.mem_cons, List.not_mem_nil, or_false] at h
    rcases h with rfl | rfl | rfl | rfl | rfl | rfl
    · decide
    · decide
    · decide
    · decide
    · exact hdigit _ (by omega)
    · exact hdigit _ (by omega)
  · rw [List.mem_singleton.mp h]
    omega

theorem readString_escape (s rest : List Char) : readString (JsonString.escape s ++ '"' :: rest) = some (s, rest) := by
  have htake : (JsonString.escape s ++ '"' :: rest).take ((JsonString.escape s ++ '"' :: rest).length - rest.length) =
      JsonString.escape s ++ ['"'] := by
    rw [List.append_cons, List.length_append, Nat.add_sub_cancel, List.take_left]
  rw [readString, JsonString.readFrom_escape, Option.bind_some, htake, if_pos]
  refine List.all_eq_true.mpr fun d hd => decide_eq_true ?_
  rcases List.mem_append.mp hd with hd | hd
  · obtain ⟨c, -, hd⟩ := List.mem_flatMap.mp hd
    exact le_toNat_of_mem_escapeChar hd
  · rw [List.mem_singleton.mp hd]
    decide

theorem quote_append : JsonString.quote s ++ rest = '"' :: (JsonString.escape s ++ '"' :: rest) := by
  rw [JsonString.quote, List.cons_append, List.append_assoc, List.singleton_append]

/-- A name is read up to its colon. -/
theorem readName_quote (name s : List Char) : readName (JsonString.quote name ++ ':' :: s) = some (name, s) := by
  rw [readName, quote_append, token_self (by decide), Option.bind_some, readString_escape, Option.bind_some,
    token_self (by decide)]
  rfl

end Tokens

section NumberTexts

variable {s rest : List Char}

/-- A number begins with a minus sign or a digit. -/
theorem isNumber_head (h : Json.IsNumber s) : ∃ c t, s = c :: t ∧ (c = '-' ∨ c.isDigit = true) := by
  obtain ⟨sign, int, fraction, exponent, hsign, ⟨⟨hne, hdigits⟩, -⟩, -, -, rfl⟩ := h
  obtain ⟨d, int, rfl⟩ := List.exists_cons_of_ne_nil hne
  rcases List.mem_pair.mp hsign with rfl | rfl
  · exact ⟨d, int ++ fraction ++ exponent, by simp, .inr (hdigits d List.mem_cons_self)⟩
  · exact ⟨'-', d :: int ++ fraction ++ exponent, by simp, .inl rfl⟩

theorem isNumber_chars (h : Json.IsNumber s) : ∀ c ∈ s, isNumberChar c = true := by
  intro c hc
  rw [isNumberChar, Bool.or_eq_true, decide_eq_true_eq]
  exact h.chars c hc

/-- A number ends at the first character that no number has. -/
theorem isNumber_span (h : Json.IsNumber s) (hrest : ∀ c ∈ rest.head?, isNumberChar c = false) :
    (s ++ rest).takeWhile isNumberChar = s ∧ (s ++ rest).dropWhile isNumberChar = rest := by
  have hall := isNumber_chars h
  rw [List.takeWhile_append_of_pos hall, List.dropWhile_append_of_pos hall]
  cases rest with
  | nil => simp
  | cons c rest =>
    have hc : ¬ isNumberChar c = true := Bool.eq_false_iff.mp (hrest c rfl)
    rw [List.takeWhile_cons_of_neg hc, List.dropWhile_cons_of_neg hc, List.append_nil]
    exact ⟨rfl, rfl⟩

theorem isWs_of_isDigit {c : Char} (h : c.isDigit = true) : isWs c = false := by
  have hlist : ∀ d ∈ [' ', '\t', '\n', '\r'], d.isDigit = false := by simp
  have hmem : isWs c = true → c ∈ [' ', '\t', '\n', '\r'] := by simp [isWs, or_assoc]
  refine Bool.eq_false_iff.mpr fun hws => ?_
  rw [hlist c (hmem hws)] at h
  exact Bool.false_ne_true h

end NumberTexts

section RoundTrip

variable {v : Value N} {s rest : List Char} {fuel : ℕ}

/-- The first character of what is written for a value. -/
theorem write_head (v : Value N) : ∃ c s, write F v = c :: s ∧ isWs c = false ∧ c ≠ ']' ∧ c ≠ '}' := by
  cases v with
  | null => exact ⟨'n', _, rfl, by decide⟩
  | bool b =>
    cases b with
    | true => exact ⟨'t', _, rfl, by decide⟩
    | false => exact ⟨'f', _, rfl, by decide⟩
  | string s => exact ⟨'"', _, rfl, by decide⟩
  | array items =>
    cases items with
    | nil => exact ⟨'[', _, rfl, by decide⟩
    | cons v items => exact ⟨'[', _, rfl, by decide⟩
  | object ps =>
    cases ps with
    | nil => exact ⟨'{', _, rfl, by decide⟩
    | cons p ps => exact ⟨'{', _, rfl, by decide⟩
  | number n =>
    obtain ⟨c, t, hwrite, rfl | hdigit⟩ := isNumber_head (F.isNumber n)
    · exact ⟨'-', t, hwrite, by decide⟩
    · refine ⟨c, t, hwrite, isWs_of_isDigit hdigit, ?_, ?_⟩
      · rintro rfl
        exact absurd hdigit (by decide)
      · rintro rfl
        exact absurd hdigit (by decide)

/-- The text of the value is read back whatever follows it, but for more characters of a number. -/
def ReadsBack (v : Value N) : Prop :=
  ∀ fuel rest, (write F v).length < fuel → (∀ c ∈ rest.head?, isNumberChar c = false) →
    readValue F fuel (write F v ++ rest) = some (v, rest)

variable {F}

/-- A number is read back. -/
theorem readsBack_number (n : N) : ReadsBack F (.number n) := by
  intro fuel rest hfuel hrest
  obtain ⟨fuel, rfl⟩ := Nat.exists_eq_add_one_of_ne_zero (Nat.ne_of_gt (Nat.zero_lt_of_lt hfuel))
  obtain ⟨htake, hdrop⟩ := isNumber_span (F.isNumber n) hrest
  obtain ⟨c, t, hwrite, hhead⟩ := isNumber_head (F.isNumber n)
  have hws : isWs c = false := by
    rcases hhead with rfl | hdigit
    · decide
    · exact isWs_of_isDigit hdigit
  have hother : ∀ d ∈ ['"', '[', '{', 'n', 't', 'f'], c ≠ d := by
    rintro d hd rfl
    have hlist : ∀ d ∈ ['"', '[', '{', 'n', 't', 'f'], d ≠ '-' ∧ d.isDigit = false := by simp
    rcases hhead with heq | hdigit
    · exact (hlist c hd).1 heq
    · exact Bool.false_ne_true ((hlist c hd).2.symm.trans hdigit)
  simp only [List.forall_mem_cons] at hother
  obtain ⟨h1, h2, h3, h4, h5, h6, -⟩ := hother
  change readValue F (fuel + 1) (F.write n ++ rest) = _
  rw [hwrite, List.cons_append] at htake hdrop ⊢
  simp only [readValue, skipWs_cons hws, if_neg h1, if_neg h2, if_neg h3, if_neg h4, if_neg h5, if_neg h6]
  rw [htake, hdrop, ← hwrite, F.read_write]
  rfl

/-- A value is read back before a comma or a closing bracket. -/
theorem ReadsBack.before (h : ReadsBack F v) (hfuel : (write F v).length < fuel) {c : Char} (hc : isNumberChar c = false) :
    readValue F fuel (write F v ++ c :: rest) = some (v, c :: rest) := by
  apply h fuel _ hfuel
  rintro d hd
  rwa [← Option.some.inj hd]

/-- What follows an item begins with a comma or with the closing bracket. -/
theorem writeItems_append (items : List (Value N)) (rest : List Char) :
    ∃ c s, writeItems F items ++ ']' :: rest = c :: s ∧ isNumberChar c = false := by
  cases items with
  | nil => exact ⟨']', rest, rfl, by decide⟩
  | cons v items => exact ⟨',', _, rfl, by decide⟩

theorem writeProperties_append (ps : List (Property N)) (rest : List Char) :
    ∃ c s, writeProperties F ps ++ '}' :: rest = c :: s ∧ isNumberChar c = false := by
  cases ps with
  | nil => exact ⟨'}', rest, rfl, by decide⟩
  | cons p ps => exact ⟨',', _, rfl, by decide⟩

/-- The items of an array are read back one by one. -/
theorem readItems_write {items : List (Value N)} (h : ∀ v ∈ items, ReadsBack F v) (acc : List (Value N))
    (hfuel : (writeItems F items).length < fuel) :
    readItems F fuel acc (writeItems F items ++ ']' :: rest) = some (.array (acc ++ items), rest) := by
  induction items generalizing acc fuel with
  | nil =>
    obtain ⟨fuel, rfl⟩ := Nat.exists_eq_add_one_of_ne_zero (Nat.ne_of_gt (Nat.zero_lt_of_lt hfuel))
    rw [writeItems, List.nil_append, readItems, token_self (by decide), List.append_nil]
  | cons v items ih =>
    obtain ⟨fuel, rfl⟩ := Nat.exists_eq_add_one_of_ne_zero (Nat.ne_of_gt (Nat.zero_lt_of_lt hfuel))
    obtain ⟨hv, hitems⟩ := List.forall_mem_cons.mp h
    simp only [writeItems, List.length_cons, List.length_append] at hfuel
    obtain ⟨c, s, hnext, hc⟩ := writeItems_append (F := F) items rest
    have hread : readValue F fuel (write F v ++ c :: s) = some (v, c :: s) := hv.before (by omega) hc
    simp only [writeItems, List.cons_append, List.append_assoc]
    rw [readItems, token_of_ne (by decide) (by decide), token_self (by decide)]
    simp only [Option.bind_some]
    rw [hnext, hread, ← hnext]
    simp only [Option.bind_some]
    rw [ih hitems _ (by omega), List.append_assoc, List.singleton_append]

theorem setProperty_of_notMem {ps : List (Property N)} {name : List Char} (h : name ∉ ps.map Prod.fst) (v : Value N) :
    setProperty ps name v = ps ++ [(name, v)] := by
  rw [setProperty, if_neg h]

/-- The properties of an object are read back one by one. -/
theorem readProperties_write {ps : List (Property N)} (h : ∀ p ∈ ps, ReadsBack F p.2) (acc : List (Property N))
    (hnames : ((acc ++ ps).map Prod.fst).Nodup) (hfuel : (writeProperties F ps).length < fuel) :
    readProperties F fuel acc (writeProperties F ps ++ '}' :: rest) = some (.object (acc ++ ps), rest) := by
  induction ps generalizing acc fuel with
  | nil =>
    obtain ⟨fuel, rfl⟩ := Nat.exists_eq_add_one_of_ne_zero (Nat.ne_of_gt (Nat.zero_lt_of_lt hfuel))
    rw [writeProperties, List.nil_append, readProperties, token_self (by decide), List.append_nil]
  | cons p ps ih =>
    obtain ⟨fuel, rfl⟩ := Nat.exists_eq_add_one_of_ne_zero (Nat.ne_of_gt (Nat.zero_lt_of_lt hfuel))
    obtain ⟨name, v⟩ := p
    have hv : ReadsBack F v := h _ List.mem_cons_self
    have hps : ∀ p ∈ ps, ReadsBack F p.2 := fun p hp => h p (List.mem_cons_of_mem _ hp)
    simp only [writeProperties, List.length_cons, List.length_append] at hfuel
    obtain ⟨c, s, hnext, hc⟩ := writeProperties_append (F := F) ps rest
    have hread : readValue F fuel (write F v ++ c :: s) = some (v, c :: s) := hv.before (by omega) hc
    have hfresh : name ∉ acc.map Prod.fst := by
      rw [List.map_append, List.nodup_append] at hnames
      exact fun hmem => hnames.2.2 name hmem name (by simp) rfl
    simp only [writeProperties, List.cons_append, List.append_assoc]
    rw [readProperties, token_of_ne (by decide) (by decide), token_self (by decide)]
    simp only [Option.bind_some, readName_quote]
    rw [hnext, hread, ← hnext]
    simp only [Option.bind_some]
    rw [setProperty_of_notMem hfresh, ih hps _ (by simpa using hnames) (by omega), List.append_assoc,
      List.singleton_append]

/-- An array is read back. -/
theorem readsBack_array {items : List (Value N)} (h : ∀ v ∈ items, ReadsBack F v) : ReadsBack F (.array items) := by
  intro fuel rest hfuel _
  obtain ⟨fuel, rfl⟩ := Nat.exists_eq_add_one_of_ne_zero (Nat.ne_of_gt (Nat.zero_lt_of_lt hfuel))
  cases items with
  | nil => rfl
  | cons v items =>
    obtain ⟨hv, hitems⟩ := List.forall_mem_cons.mp h
    simp only [write, List.length_cons, List.length_append, List.length_nil] at hfuel
    obtain ⟨c, t, hhead, hws, hclose, -⟩ := write_head F v
    obtain ⟨d, s, hnext, hd⟩ := writeItems_append (F := F) items rest
    have hread : readValue F fuel (write F v ++ d :: s) = some (v, d :: s) := hv.before (by omega) hd
    have htoken : token ']' (write F v ++ d :: s) = none := by
      rw [hhead, List.cons_append]
      exact token_of_ne hws hclose
    simp only [write, List.cons_append, List.append_assoc, List.nil_append]
    rw [hnext, readValue, skipWs_cons (by decide)]
    simp only [if_true, htoken, hread, Option.bind_some]
    rw [if_neg (by decide), ← hnext, readItems_write hitems _ (by omega), List.singleton_append]

/-- An object is read back. -/
theorem readsBack_object {ps : List (Property N)} (hnames : (ps.map Prod.fst).Nodup) (h : ∀ p ∈ ps, ReadsBack F p.2) :
    ReadsBack F (.object ps) := by
  intro fuel rest hfuel _
  obtain ⟨fuel, rfl⟩ := Nat.exists_eq_add_one_of_ne_zero (Nat.ne_of_gt (Nat.zero_lt_of_lt hfuel))
  cases ps with
  | nil => rfl
  | cons p ps =>
    obtain ⟨name, v⟩ := p
    have hv : ReadsBack F v := h _ List.mem_cons_self
    have hps : ∀ p ∈ ps, ReadsBack F p.2 := fun p hp => h p (List.mem_cons_of_mem _ hp)
    simp only [write, List.length_cons, List.length_append, List.length_nil] at hfuel
    obtain ⟨d, s, hnext, hd⟩ := writeProperties_append (F := F) ps rest
    have hread : readValue F fuel (write F v ++ d :: s) = some (v, d :: s) := hv.before (by omega) hd
    have htoken : token '}' (JsonString.quote name ++ ':' :: (write F v ++ d :: s)) = none := by
      rw [quote_append]
      exact token_of_ne (by decide) (by decide)
    simp only [write, List.cons_append, List.append_assoc, List.nil_append]
    rw [hnext, readValue, skipWs_cons (by decide)]
    simp only [if_true, htoken, readName_quote, hread, Option.bind_some]
    rw [if_neg (by decide), if_neg (by decide), ← hnext, readProperties_write hps _ (by simpa using hnames) (by omega),
      List.singleton_append]

/-- By induction on the value. -/
theorem Value.WellFormed.readsBack (h : v.WellFormed) : ReadsBack F v := by
  induction h with
  | null =>
    rintro (_ | fuel) rest hfuel -
    · exact absurd hfuel (Nat.not_lt_zero _)
    · rfl
  | bool b =>
    rintro (_ | fuel) rest hfuel -
    · exact absurd hfuel (Nat.not_lt_zero _)
    · cases b with
      | true => rfl
      | false => rfl
  | number n => exact readsBack_number n
  | string s =>
    rintro (_ | fuel) rest hfuel -
    · exact absurd hfuel (Nat.not_lt_zero _)
    · rw [write, quote_append, readValue, skipWs_cons (by decide)]
      simp only [if_true, readString_escape, Option.map_some]
  | array _ ih => exact readsBack_array ih
  | object hnames _ ih => exact readsBack_object hnames ih

/-- Writing and reading is the identity. -/
theorem read_write (h : v.WellFormed) : read F (write F v) = some v := by
  have hread := h.readsBack (F := F) ((write F v).length + 1) [] (Nat.lt_succ_self _) (by simp)
  rw [List.append_nil] at hread
  rw [read, hread]
  rfl

/-- Different values are written differently. -/
theorem write_inj {w : Value N} (hv : v.WellFormed) (hw : w.WellFormed) : write F v = write F w ↔ v = w := by
  constructor
  · intro h
    have hread := read_write (F := F) hv
    rw [h, read_write hw] at hread
    exact (Option.some.inj hread).symm
  · rintro rfl
    rfl

end RoundTrip

/-! ## Natural numbers -/

/-- No decimal number but zero begins with a zero. -/
theorem eq_zero_of_head_decimal {n : ℕ} (h : (Text.decimal n).head? = some '0') : n = 0 := by
  induction n using Nat.strong_induction_on with
  | _ n ih =>
    rcases Nat.lt_or_ge n 10 with hlt | hge
    · have hdigit : ∀ n < 10, Nat.digitChar n = '0' → n = 0 := by decide
      rw [Text.decimal, Nat.toDigits_of_lt_base hlt, List.head?_cons, Option.some.injEq] at h
      exact hdigit n hlt h
    · rw [Text.decimal, Nat.toDigits_of_base_le (by decide) hge,
        List.head?_append_of_ne_nil _ Nat.toDigits_ne_nil] at h
      have hquotient := ih (n / 10) (by omega) h
      omega

/-- Natural numbers in decimal digits. -/
def naturals : NumberFormat ℕ where
  write := Text.decimal
  read digits :=
    let n := Nat.ofDigitChars 10 digits 0
    if Text.decimal n = digits then some n else none
  isNumber n := by
    have hdigits : Json.IsDigits (Text.decimal n) := ⟨Nat.toDigits_ne_nil, fun _ hc => Text.isDigit_of_mem_decimal hc⟩
    refine ⟨[], Text.decimal n, [], [], List.mem_cons_self, ⟨hdigits, fun h => ?_⟩, .inl rfl, .inl rfl, by simp⟩
    rw [eq_zero_of_head_decimal h]
    rfl
  read_write n := by
    have hvalue : Nat.ofDigitChars 10 (Text.decimal n) 0 = n := Nat.ofDigitChars_ten_toDigits
    simp only [hvalue, if_true]

end Builderbot.Lib.JsonValue
