import Mathlib.Data.List.Basic

/-!
# UTF-16

The code units of a text, for programs whose strings are sequences of 16-bit units. The lemmas say
how to recognise an ASCII character among the units, and that the units determine the text.
-/

namespace Builderbot.Lib.Utf16

/-- The code units of a character: one below `0x10000`, and a surrogate pair above. -/
def encodeChar (c : Char) : List UInt16 :=
  if c.toNat < 0x10000 then [c.toNat.toUInt16]
  else [(0xD800 + (c.toNat - 0x10000) / 0x400).toUInt16, (0xDC00 + c.toNat % 0x400).toUInt16]

/-- The code units of a text. -/
def encode (s : List Char) : List UInt16 := s.flatMap encodeChar

@[simp]
theorem encode_nil : encode [] = [] := rfl

@[simp]
theorem encode_cons (c : Char) (s : List Char) : encode (c :: s) = encodeChar c ++ encode s :=
  List.flatMap_cons

@[simp]
theorem encode_append (s t : List Char) : encode (s ++ t) = encode s ++ encode t :=
  List.flatMap_append

theorem encodeChar_ne_nil (c : Char) : encodeChar c ≠ [] := by
  unfold encodeChar
  split <;> simp

theorem encode_eq_nil_iff {s : List Char} : encode s = [] ↔ s = [] := by
  cases s with
  | nil => simp
  | cons c s => simp [encodeChar_ne_nil]

/-- No character is a surrogate. -/
theorem toNat_cases (c : Char) : c.toNat < 0xD800 ∨ 0xDFFF < c.toNat ∧ c.toNat < 0x110000 := by
  have hvalid := c.valid
  simp only [UInt32.isValidChar, Nat.isValidChar] at hvalid
  change c.val.toNat < 0xD800 ∨ 0xDFFF < c.val.toNat ∧ c.val.toNat < 0x110000
  omega

theorem toUInt16_inj {m n : ℕ} (hm : m < 0x10000) (hn : n < 0x10000) : m.toUInt16 = n.toUInt16 ↔ m = n := by
  rw [← UInt16.toNat_inj]
  simp only [Nat.toUInt16, UInt16.toNat_ofNat']
  omega

/-- A character below the surrogates is its own code unit, and no other character has that unit. -/
theorem mem_encodeChar_iff {c d : Char} (hd : d.toNat < 0xD800) :
    d.toNat.toUInt16 ∈ encodeChar c ↔ c = d := by
  have hc := toNat_cases c
  unfold encodeChar
  split
  · rename_i hlt
    rw [List.mem_singleton, toUInt16_inj (by omega) hlt, eq_comm, Char.toNat_inj]
  · rename_i hge
    rw [List.mem_cons, List.mem_singleton, toUInt16_inj (by omega) (by omega), toUInt16_inj (by omega) (by omega)]
    constructor
    · omega
    · rintro rfl
      omega

/-! ## Decoding -/

variable {s : List UInt16}

/-- The units at the beginning of a text are those of one character only. -/
theorem encodeChar_append_inj {c d : Char} {t : List UInt16} (h : encodeChar c ++ s = encodeChar d ++ t) :
    c = d ∧ s = t := by
  have hc := toNat_cases c
  have hd := toNat_cases d
  unfold encodeChar at h
  split at h
  · rename_i hcs
    split at h
    · rename_i hds
      rw [List.singleton_append, List.singleton_append, List.cons.injEq, toUInt16_inj hcs hds, Char.toNat_inj] at h
      exact h
    · rename_i hds
      rw [List.singleton_append, List.cons_append, List.cons.injEq, toUInt16_inj hcs (by omega)] at h
      omega
  · rename_i hcs
    split at h
    · rename_i hds
      rw [List.singleton_append, List.cons_append, List.cons.injEq, toUInt16_inj (by omega) hds] at h
      omega
    · rename_i hds
      simp only [List.cons_append, List.nil_append, List.cons.injEq] at h
      rw [toUInt16_inj (by omega) (by omega), toUInt16_inj (by omega) (by omega)] at h
      refine ⟨Char.toNat_inj.mp ?_, h.2.2⟩
      omega

theorem encode_injective : Function.Injective encode := by
  intro s t h
  induction s generalizing t with
  | nil => exact (encode_eq_nil_iff.mp h.symm).symm
  | cons c s ih =>
    cases t with
    | nil => exact absurd (encode_eq_nil_iff.mp h) (List.cons_ne_nil c s)
    | cons d t =>
      rw [encode_cons, encode_cons] at h
      obtain ⟨rfl, hrest⟩ := encodeChar_append_inj h
      rw [ih hrest]

/-! ## Characters -/

def isHighSurrogate (u : UInt16) : Bool := 0xD800 ≤ u && u ≤ 0xDBFF

def isLowSurrogate (u : UInt16) : Bool := 0xDC00 ≤ u && u ≤ 0xDFFF

/-- The characters of a string: the surrogate pairs, and every other unit. -/
def chars : List UInt16 → List (List UInt16)
  | [] => []
  | [u] => [[u]]
  | u :: v :: s => if isHighSurrogate u && isLowSurrogate v then [u, v] :: chars s else [u] :: chars (v :: s)

theorem flatten_chars (s : List UInt16) : (chars s).flatten = s := by
  induction s using chars.induct with
  | case1 => rfl
  | case2 u => rfl
  | case3 u v s hpair ih =>
    rw [chars, if_pos hpair, List.flatten_cons, ih]
    rfl
  | case4 u v s hpair ih =>
    rw [chars, if_neg hpair, List.flatten_cons, ih]
    rfl

theorem ne_nil_of_mem_chars {c : List UInt16} (hc : c ∈ chars s) : c ≠ [] := by
  induction s using chars.induct with
  | case1 => cases hc
  | case2 u =>
    rw [List.mem_singleton.mp hc]
    exact List.cons_ne_nil u []
  | case3 u v s hpair ih =>
    rw [chars, if_pos hpair] at hc
    rcases List.mem_cons.mp hc with rfl | hc
    · exact List.cons_ne_nil u [v]
    · exact ih hc
  | case4 u v s hpair ih =>
    rw [chars, if_neg hpair] at hc
    rcases List.mem_cons.mp hc with rfl | hc
    · exact List.cons_ne_nil u []
    · exact ih hc

/-- A string begins with its first character. -/
theorem exists_chars_cons (u : UInt16) (s : List UInt16) : ∃ c cs, chars (u :: s) = (u :: c) :: cs := by
  cases s with
  | nil => exact ⟨[], [], rfl⟩
  | cons v s =>
    rw [chars]
    split
    · exact ⟨[v], chars s, rfl⟩
    · exact ⟨[], chars (v :: s), rfl⟩

variable {xs : List (List UInt16)}

/-- The characters from one on are the characters of their units. -/
theorem chars_flatten_of_suffix (h : xs <:+ chars s) : chars xs.flatten = xs := by
  induction s using chars.induct with
  | case1 =>
    rw [List.suffix_nil.mp h]
    rfl
  | case2 u =>
    rcases List.suffix_cons_iff.mp h with rfl | h
    · rfl
    · rw [List.suffix_nil.mp h]
      rfl
  | case3 u v s hpair ih =>
    have hchars : chars (u :: v :: s) = [u, v] :: chars s := by rw [chars, if_pos hpair]
    rcases List.suffix_cons_iff.mp (hchars ▸ h) with rfl | h
    · rw [← hchars, flatten_chars]
    · exact ih h
  | case4 u v s hpair ih =>
    have hchars : chars (u :: v :: s) = [u] :: chars (v :: s) := by rw [chars, if_neg hpair]
    rcases List.suffix_cons_iff.mp (hchars ▸ h) with rfl | h
    · rw [← hchars, flatten_chars]
    · exact ih h

theorem chars_flatten_of_prefix (h : xs <+: chars s) : chars xs.flatten = xs := by
  induction s using chars.induct generalizing xs with
  | case1 =>
    rw [List.prefix_nil.mp h]
    rfl
  | case2 u =>
    rcases List.prefix_cons_iff.mp h with rfl | ⟨ys, rfl, hys⟩
    · rfl
    · rw [List.prefix_nil.mp hys]
      rfl
  | case3 u v s hpair ih =>
    rw [chars, if_pos hpair] at h
    rcases List.prefix_cons_iff.mp h with rfl | ⟨ys, rfl, hys⟩
    · rfl
    · show chars (u :: v :: ys.flatten) = [u, v] :: ys
      rw [chars, if_pos hpair, ih hys]
  | case4 u v s hpair ih =>
    rw [chars, if_neg hpair] at h
    rcases List.prefix_cons_iff.mp h with rfl | ⟨ys, rfl, hys⟩
    · rfl
    · have hrest := ih hys
      cases ys with
      | nil => rfl
      | cons y ys =>
        -- what follows begins with the unit that makes no pair
        obtain ⟨c, cs, hcs⟩ := exists_chars_cons v s
        obtain ⟨rfl, -⟩ := List.cons_prefix_cons.mp (hcs ▸ hys)
        show chars (u :: v :: (c ++ ys.flatten)) = [u] :: (v :: c) :: ys
        rw [chars, if_neg hpair]
        exact congrArg _ hrest

theorem chars_flatten_of_infix (h : xs <:+: chars s) : chars xs.flatten = xs := by
  obtain ⟨ys, hys, hxs⟩ := List.infix_iff_suffix_prefix.mp h
  rw [← chars_flatten_of_prefix hxs] at hys
  exact chars_flatten_of_suffix hys

end Builderbot.Lib.Utf16
