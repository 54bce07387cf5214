import Builderbot.Lib.Text

/-!
# Strings in JSON

The characters of a string as `serde_json` writes them between the quotes, and a reader that goes
through them up to the closing quote. An escape sequence begins with a backslash and has none but
ASCII letters, digits, a quote or a backslash in it, so a text without any of the escaped characters
that begins with another character occurs in the written form exactly when it occurs in the string.
-/

namespace Builderbot.Lib.JsonString

/-- What is written for a character. -/
def escapeChar (c : Char) : List Char :=
  if c = '"' then ['\\', '"']
  else if c = '\\' then ['\\', '\\']
  else if c = '\x08' then ['\\', 'b']
  else if c = '\t' then ['\\', 't']
  else if c = '\n' then ['\\', 'n']
  else if c = '\x0c' then ['\\', 'f']
  else if c = '\r' then ['\\', 'r']
  else if c.toNat < 0x20 then
    ['\\', 'u', '0', '0', Nat.digitChar (c.toNat / 16), Nat.digitChar (c.toNat % 16)]
  else [c]

/-- What is written for a string, without the quotes. -/
def escape (s : List Char) : List Char := s.flatMap escapeChar

/-- A string with its quotes. -/
def quote (s : List Char) : List Char := '"' :: (escape s ++ ['"'])

/-- The value of a hexadecimal digit. -/
def hexValue (c : Char) : Option ℕ :=
  if '0' ≤ c ∧ c ≤ '9' then some (c.toNat - 48)
  else if 'a' ≤ c ∧ c ≤ 'f' then some (c.toNat - 87)
  else if 'A' ≤ c ∧ c ≤ 'F' then some (c.toNat - 55)
  else none

/-- What a backslash and a letter stand for. -/
def unescapeLetter (c : Char) : Option Char :=
  if c = '"' ∨ c = '\\' ∨ c = '/' then some c
  else if c = 'b' then some '\x08'
  else if c = 't' then some '\t'
  else if c = 'n' then some '\n'
  else if c = 'f' then some '\x0c'
  else if c = 'r' then some '\r'
  else none

/-- Where the reader stands: between characters, after a backslash, or in the digits of `\u`, of
which `left` are missing. -/
inductive Mode where
  | plain
  | backslash
  | digits (value left : ℕ)

/-- Read up to the closing quote: the string and what follows. Surrogate pairs are not joined. -/
def readFrom : Mode → List Char → Option (List Char × List Char)
  | _, [] => none
  | .plain, c :: s =>
    if c = '"' then some ([], s)
    else if c = '\\' then readFrom .backslash s
    else (readFrom .plain s).map fun r => (c :: r.1, r.2)
  | .backslash, c :: s =>
    if c = 'u' then readFrom (.digits 0 4) s
    else (unescapeLetter c).bind fun d => (readFrom .plain s).map fun r => (d :: r.1, r.2)
  | .digits value left, c :: s =>
    (hexValue c).bind fun v =>
      if left ≤ 1 then (readFrom .plain s).map fun r => (Char.ofNat (value * 16 + v) :: r.1, r.2)
      else readFrom (.digits (value * 16 + v) (left - 1)) s

/-! ## Reading back -/

theorem hexValue_digitChar {n : ℕ} (h : n < 16) : hexValue (Nat.digitChar n) = some n := by
  have hall : ∀ n < 16, hexValue (Nat.digitChar n) = some n := by decide
  exact hall n h

/-- A written control character. -/
theorem readFrom_control {c : Char} (h : c.toNat < 0x20) (s : List Char) :
    readFrom .plain ('\\' :: 'u' :: '0' :: '0' :: Nat.digitChar (c.toNat / 16) ::
      Nat.digitChar (c.toNat % 16) :: s) = (readFrom .plain s).map fun r => (c :: r.1, r.2) := by
  have hzero : hexValue '0' = some 0 := by decide
  have hhigh := hexValue_digitChar (n := c.toNat / 16) (by omega)
  have hlow := hexValue_digitChar (n := c.toNat % 16) (by omega)
  have hvalue : Char.ofNat (c.toNat / 16 * 16 + c.toNat % 16) = c := by
    rw [Nat.div_add_mod', Char.ofNat_toNat]
  simp [readFrom, hzero, hhigh, hlow, hvalue]

/-- One character is read back. -/
theorem readFrom_escapeChar (c : Char) (s : List Char) :
    readFrom .plain (escapeChar c ++ s) = (readFrom .plain s).map fun r => (c :: r.1, r.2) := by
  unfold escapeChar
  -- the characters with a letter of their own, in the order of the source
  split
  · rename_i h
    subst h
    rfl
  split
  · rename_i h
    subst h
    rfl
  split
  · rename_i h
    subst h
    rfl
  split
  · rename_i h
    subst h
    rfl
  split
  · rename_i h
    subst h
    rfl
  split
  · rename_i h
    subst h
    rfl
  split
  · rename_i h
    subst h
    rfl
  split
  · rename_i h
    exact readFrom_control h s
  · rename_i hquote hback _ _ _ _ _ _
    rw [List.singleton_append, readFrom, if_neg hquote, if_neg hback]

/-- A written string is read back up to its closing quote. -/
theorem readFrom_escape (s rest : List Char) :
    readFrom .plain (escape s ++ '"' :: rest) = some (s, rest) := by
  induction s with
  | nil => rfl
  | cons c s ih =>
    rw [escape, List.flatMap_cons, List.append_assoc, readFrom_escapeChar]
    rw [escape] at ih
    rw [ih]
    rfl

/-! ## What occurs in the written form -/

/-- A character that is written as itself. -/
def isBare (c : Char) : Bool := c ≠ '"' && c ≠ '\\' && 0x20 ≤ c.toNat

theorem escapeChar_of_isBare {c : Char} (h : isBare c = true) : escapeChar c = [c] := by
  simp only [isBare, Bool.and_eq_true, decide_eq_true_eq] at h
  obtain ⟨⟨hquote, hback⟩, hlow⟩ := h
  have hne : ∀ d : Char, d.toNat < 0x20 → c ≠ d := by
    rintro d hd rfl
    omega
  rw [escapeChar, if_neg hquote, if_neg hback, if_neg (hne _ (by decide)),
    if_neg (hne _ (by decide)), if_neg (hne _ (by decide)), if_neg (hne _ (by decide)),
    if_neg (hne _ (by decide)), if_neg (by omega)]

/-- What may follow the backslash of an escape sequence. -/
def isEscapeLetter (c : Char) : Bool := c = '"' || c = '\\' || c.isAlphanum

theorem isEscapeLetter_digitChar {n : ℕ} (h : n < 16) : isEscapeLetter (Nat.digitChar n) = true := by
  have hall : ∀ n < 16, isEscapeLetter (Nat.digitChar n) = true := by decide
  exact hall n h

/-- A character is written as itself or as a backslash and more. -/
theorem escapeChar_cases (c : Char) : escapeChar c = [c] ∨
    ∃ w, escapeChar c = '\\' :: w ∧ ∀ d ∈ w, isEscapeLetter d = true := by
  have hletter : ∀ d : Char, isEscapeLetter d = true → ∀ e ∈ [d], isEscapeLetter e = true := by
    intro d hd e he
    rwa [List.mem_singleton.mp he]
  unfold escapeChar
  split
  · exact .inr ⟨_, rfl, hletter _ (by decide)⟩
  split
  · exact .inr ⟨_, rfl, hletter _ (by decide)⟩
  split
  · exact .inr ⟨_, rfl, hletter _ (by decide)⟩
  split
  · exact .inr ⟨_, rfl, hletter _ (by decide)⟩
  split
  · exact .inr ⟨_, rfl, hletter _ (by decide)⟩
  split
  · exact .inr ⟨_, rfl, hletter _ (by decide)⟩
  split
  · exact .inr ⟨_, rfl, hletter _ (by decide)⟩
  split
  · refine .inr ⟨_, rfl, ?_⟩
    simp only [List.forall_mem_cons]
    exact ⟨by decide, by decide, by decide, isEscapeLetter_digitChar (by omega),
      isEscapeLetter_digitChar (by omega), by simp⟩
  · exact .inl rfl

/-- A text without escaped characters that the written form begins with. -/
theorem prefix_of_prefix_escape {pat s : List Char} (hpat : '\\' ∉ pat) (h : pat <+: escape s) :
    pat <+: s := by
  induction pat generalizing s with
  | nil => exact List.nil_prefix
  | cons c pat ih =>
    rw [List.mem_cons, not_or] at hpat
    cases s with
    | nil => exact h
    | cons d s =>
      rw [escape, List.flatMap_cons] at h
      rcases escapeChar_cases d with hd | ⟨w, hd, -⟩
      · rw [hd, List.singleton_append, List.cons_prefix_cons] at h
        exact List.cons_prefix_cons.mpr ⟨h.1, ih hpat.2 h.2⟩
      · rw [hd, List.cons_append, List.cons_prefix_cons] at h
        exact absurd h.1.symm hpat.1

/-- A text of bare characters occurs in the written form when it occurs in the string, and only then
if it begins with a character that no escape sequence has. -/
theorem infix_escape_iff {c : Char} {pat s : List Char} (hpat : ∀ d ∈ c :: pat, isBare d = true)
    (hc : isEscapeLetter c = false) : (c :: pat) <:+: escape s ↔ (c :: pat) <:+: s := by
  have hback : '\\' ∉ c :: pat := fun h => absurd (hpat _ h) (by decide)
  constructor
  · intro h
    induction s with
    | nil => exact h
    | cons d s ih =>
      rw [escape, List.flatMap_cons] at h
      rw [List.infix_cons_iff]
      -- a character stands for itself, or its escape sequence has no place where the text could
      -- begin
      rcases escapeChar_cases d with hd | ⟨w, hd, hw⟩
      · rw [hd, List.singleton_append, List.infix_cons_iff] at h
        rcases h with hpre | hinf
        · left
          apply prefix_of_prefix_escape hback
          rwa [escape, List.flatMap_cons, hd, List.singleton_append]
        · exact .inr (ih hinf)
      · right
        apply ih
        have hnot : c ∉ '\\' :: w := by
          rw [List.mem_cons, not_or]
          constructor
          · rintro rfl
            exact hback List.mem_cons_self
          · intro hmem
            exact absurd ((hw c hmem).symm.trans hc) (by decide)
        rw [hd] at h
        exact Text.infix_of_infix_append hnot h
  · rintro ⟨x, y, rfl⟩
    have hself : escape (c :: pat) = c :: pat := by
      rw [escape, List.flatMap_congr fun d hd => escapeChar_of_isBare (hpat d hd)]
      simp
    refine ⟨escape x, escape y, ?_⟩
    rw [escape, escape, escape, List.flatMap_append, List.flatMap_append]
    rw [escape] at hself
    rw [hself]

end Builderbot.Lib.JsonString
