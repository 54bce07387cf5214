import Builderbot.Lib.Text
import Mathlib.Algebra.Order.BigOperators.Group.List
import Mathlib.Algebra.Order.Group.Nat

/-!
# UTF-8

A decoder that drops what is not UTF-8, in the terms of `fromUtf8Lossy`, its round trip with the encoding of
the standard library, an encoder that repairs what is not UTF-8, and what becomes of a text that is decoded in
pieces.
-/

namespace Builderbot.Lib.Utf8

open Text

/-- The bytes of a text. -/
def encode (s : List Char) : List UInt8 := s.flatMap String.utf8EncodeChar

/-- A byte at the start of a sequence: what it decodes to, the rest to wait for, and whether it is
invalid. -/
def start (b : ℕ) : List Char × Option Utf8Pending × Bool :=
  if b < 0x80 ∨ 0xC2 ≤ b ∧ b ≤ 0xF4 then ((utf8Start b).1, (utf8Start b).2, false)
  else ([], none, true)

/-- The loop of `decode`. -/
def decodeFrom : Option Utf8Pending → List UInt8 → List Char × Bool
  | none, [] => ([], false)
  | some _, [] => ([], true)
  | none, b :: bs =>
    let (cs, pending, invalid) := start b.toNat
    let (rest, invalidRest) := decodeFrom pending bs
    (cs ++ rest, invalid || invalidRest)
  | some p, b :: bs =>
    if p.lower ≤ b.toNat ∧ b.toNat ≤ p.upper then
      let bits := p.bits * 64 + (b.toNat - 0x80)
      if p.missing = 1 then
        let (rest, invalidRest) := decodeFrom none bs
        (Char.ofNat bits :: rest, invalidRest)
      else decodeFrom (some ⟨p.missing - 1, bits, 0x80, 0xBF⟩) bs
    else
      -- the broken sequence ends before `b`, which starts over
      let (cs, pending, _) := start b.toNat
      let (rest, _) := decodeFrom pending bs
      (cs ++ rest, true)

/-- Decode, dropping each maximal prefix of a broken sequence; the flag says whether there was one. -/
def decode (bytes : List UInt8) : List Char × Bool := decodeFrom none bytes

/-! ## Round trip -/

@[simp]
theorem encode_nil : encode [] = [] := rfl

variable (c : Char)

@[simp]
theorem encode_cons (s : List Char) : encode (c :: s) = String.utf8EncodeChar c ++ encode s :=
  List.flatMap_cons

@[simp]
theorem encode_append (s t : List Char) : encode (s ++ t) = encode s ++ encode t :=
  List.flatMap_append

theorem utf8EncodeChar_ne_nil : String.utf8EncodeChar c ≠ [] := by
  unfold String.utf8EncodeChar
  dsimp only
  split
  · exact List.cons_ne_nil _ _
  · split
    · exact List.cons_ne_nil _ _
    · split <;> exact List.cons_ne_nil _ _

variable {s : List Char}

theorem encode_ne_nil (h : s ≠ []) : encode s ≠ [] := by
  obtain ⟨c, t, rfl⟩ := List.exists_cons_of_ne_nil h
  rw [encode_cons]
  exact List.append_ne_nil_of_left_ne_nil (utf8EncodeChar_ne_nil c) _

section

variable {b : UInt8} {bs : List UInt8} {n bits lower upper : ℕ}

theorem toNat_ofNat (h : n < 256) : (UInt8.ofNat n).toNat = n := by
  rw [UInt8.toNat_ofNat']
  omega

/-- The first byte of a longer sequence has the high bits of a character. -/
theorem toNat_lead {m base : ℕ} (hn : n < m) (hbase : m + base ≤ 256) :
    (UInt8.ofNat (n % m + base)).toNat = n + base := by
  rw [Nat.mod_eq_of_lt hn]
  exact toNat_ofNat (by omega)

/-- Each byte after it has six bits more. -/
theorem toNat_continuation (n : ℕ) : (UInt8.ofNat (n % 0x40 + 0x80)).toNat = n % 0x40 + 0x80 :=
  toNat_ofNat (by omega)

theorem decodeFrom_more {missing : ℕ} (hm : missing ≠ 1) (hlo : lower ≤ b.toNat)
    (hhi : b.toNat ≤ upper) :
    decodeFrom (some ⟨missing, bits, lower, upper⟩) (b :: bs)
      = decodeFrom (some ⟨missing - 1, bits * 64 + (b.toNat - 0x80), 0x80, 0xBF⟩) bs := by
  simp [decodeFrom, hm, hlo, hhi]

theorem decodeFrom_last (hlo : lower ≤ b.toNat) (hhi : b.toNat ≤ upper) :
    decodeFrom (some ⟨1, bits, lower, upper⟩) (b :: bs)
      = (Char.ofNat (bits * 64 + (b.toNat - 0x80)) :: (decodeFrom none bs).1,
          (decodeFrom none bs).2) := by
  simp [decodeFrom, hlo, hhi]

theorem decodeFrom_lead {p : Utf8Pending} (hb : 0xC2 ≤ b.toNat ∧ b.toNat ≤ 0xF4)
    (hp : utf8Start b.toNat = ([], some p)) :
    decodeFrom none (b :: bs) = decodeFrom (some p) bs := by
  simp [decodeFrom, start, hb, hp]

end

/-- Decoding reads a character back, whatever follows. -/
theorem decodeFrom_utf8EncodeChar (bs : List UInt8) : decodeFrom none (String.utf8EncodeChar c ++ bs)
      = (c :: (decodeFrom none bs).1, (decodeFrom none bs).2) := by
  have hvalid := c.valid
  have hofNat : Char.ofNat c.val.toNat = c := Char.ofNat_toNat c
  simp only [UInt32.isValidChar, Nat.isValidChar] at hvalid
  unfold String.utf8EncodeChar
  dsimp only
  generalize hv : c.val.toNat = v at hvalid hofNat ⊢
  -- one case for each length, from one byte to four
  split
  · rename_i h1
    have hb : (UInt8.ofNat v).toNat = v := toNat_ofNat (by omega)
    have hlt : v < 0x80 := by omega
    simp [decodeFrom, start, utf8Start, hb, hlt, hofNat]
  split
  · rename_i h1 h2
    have hb1 : (UInt8.ofNat (v / 64 % 0x20 + 0xc0)).toNat = v / 64 + 0xc0 :=
      toNat_lead (by omega) (by decide)
    have hb2 := toNat_continuation v
    have hstart : utf8Start (v / 64 + 0xc0) = ([], some ⟨1, v / 64 + 0xc0 - 0xC0, 0x80, 0xBF⟩) := by
      unfold utf8Start
      rw [if_neg (by omega), if_pos (by omega)]
    rw [List.cons_append, List.cons_append, List.nil_append,
      decodeFrom_lead (by omega) (hb1 ▸ hstart), decodeFrom_last (by omega) (by omega), hb2]
    have hbits : (v / 64 + 0xc0 - 0xC0) * 64 + (v % 0x40 + 0x80 - 0x80) = v := by omega
    rw [hb1, hbits, hofNat]
  split
  · rename_i h1 h2 h3
    have hb1 : (UInt8.ofNat (v / 4096 % 0x10 + 0xe0)).toNat = v / 4096 + 0xe0 :=
      toNat_lead (by omega) (by decide)
    have hb2 := toNat_continuation (v / 64)
    have hb3 := toNat_continuation v
    have hstart : utf8Start (v / 4096 + 0xe0) = ([], some ⟨2, v / 4096 + 0xe0 - 0xE0,
        if v / 4096 + 0xe0 = 0xE0 then 0xA0 else 0x80,
        if v / 4096 + 0xe0 = 0xED then 0x9F else 0xBF⟩) := by
      unfold utf8Start
      rw [if_neg (by omega), if_neg (by omega), if_pos (by omega)]
    rw [List.cons_append, List.cons_append, List.cons_append, List.nil_append,
      decodeFrom_lead (by omega) (hb1 ▸ hstart),
      decodeFrom_more (by decide) (by split <;> omega) (by split <;> omega), hb2,
      decodeFrom_last (by omega) (by omega), hb3]
    have hbits : ((v / 4096 + 0xe0 - 0xE0) * 64 + (v / 64 % 0x40 + 0x80 - 0x80)) * 64
        + (v % 0x40 + 0x80 - 0x80) = v := by omega
    rw [hb1, hbits, hofNat]
  · rename_i h1 h2 h3
    have hb1 : (UInt8.ofNat (v / 262144 % 0x08 + 0xf0)).toNat = v / 262144 + 0xf0 :=
      toNat_lead (by omega) (by decide)
    have hb2 := toNat_continuation (v / 4096)
    have hb3 := toNat_continuation (v / 64)
    have hb4 := toNat_continuation v
    have hstart : utf8Start (v / 262144 + 0xf0) = ([], some ⟨3, v / 262144 + 0xf0 - 0xF0,
        if v / 262144 + 0xf0 = 0xF0 then 0x90 else 0x80,
        if v / 262144 + 0xf0 = 0xF4 then 0x8F else 0xBF⟩) := by
      unfold utf8Start
      rw [if_neg (by omega), if_neg (by omega), if_neg (by omega), if_pos (by omega)]
    rw [List.cons_append, List.cons_append, List.cons_append, List.cons_append, List.nil_append,
      decodeFrom_lead (by omega) (hb1 ▸ hstart),
      decodeFrom_more (by decide) (by split <;> omega) (by split <;> omega), hb2,
      decodeFrom_more (by decide) (by omega) (by omega), hb3,
      decodeFrom_last (by omega) (by omega), hb4]
    have hbits : (((v / 262144 + 0xf0 - 0xF0) * 64 + (v / 4096 % 0x40 + 0x80 - 0x80)) * 64
        + (v / 64 % 0x40 + 0x80 - 0x80)) * 64 + (v % 0x40 + 0x80 - 0x80) = v := by omega
    rw [hb1, hbits, hofNat]

/-- Decoding reads an encoded text back, and finds nothing invalid in it. -/
theorem decode_encode (s : List Char) : decode (encode s) = (s, false) := by
  induction s with
  | nil => rfl
  | cons c s ih =>
    unfold decode at ih ⊢
    rw [encode_cons, decodeFrom_utf8EncodeChar, ih]

/-- A line feed is a byte of its own, and no other character has that byte. -/
theorem lineFeed_mem_utf8EncodeChar {c : Char} : 10 ∈ String.utf8EncodeChar c ↔ c = '\n' := by
  have hbyte : ∀ n : ℕ, n < 256 → ((10 : UInt8) = UInt8.ofNat n ↔ n = 10) := by
    intro n hn
    rw [← UInt8.toNat_inj, toNat_ofNat hn, eq_comm]
    rfl
  have hchar : c = '\n' ↔ c.val.toNat = 10 := by
    rw [← Char.toNat_inj]
    rfl
  have hvalid := c.valid
  simp only [UInt32.isValidChar, Nat.isValidChar] at hvalid
  rw [hchar]
  unfold String.utf8EncodeChar
  dsimp only
  generalize c.val.toNat = v at hvalid ⊢
  split
  · rw [List.mem_singleton, hbyte v (by omega)]
  split
  · simp only [List.mem_cons, List.not_mem_nil, or_false]
    rw [hbyte _ (by omega), hbyte _ (by omega)]
    omega
  split
  · simp only [List.mem_cons, List.not_mem_nil, or_false]
    rw [hbyte _ (by omega), hbyte _ (by omega), hbyte _ (by omega)]
    omega
  · simp only [List.mem_cons, List.not_mem_nil, or_false]
    rw [hbyte _ (by omega), hbyte _ (by omega), hbyte _ (by omega), hbyte _ (by omega)]
    omega

theorem lineFeed_mem_encode : 10 ∈ encode s ↔ '\n' ∈ s := by
  simp [encode, lineFeed_mem_utf8EncodeChar]

/-! ## Repaired bytes

An encoder for texts that are bytes replaces every byte that is in no UTF-8 sequence by U+FFFD. -/

/-- The bounds of the bytes that follow a first byte. -/
def continuation (b : ℕ) : Option (List (ℕ × ℕ)) :=
  if b < 0x80 then some []
  else if 0xC2 ≤ b ∧ b ≤ 0xDF then some [(0x80, 0xBF)]
  else if 0xE0 ≤ b ∧ b ≤ 0xEF then
    some [(if b = 0xE0 then 0xA0 else 0x80, if b = 0xED then 0x9F else 0xBF), (0x80, 0xBF)]
  else if 0xF0 ≤ b ∧ b ≤ 0xF4 then
    some [(if b = 0xF0 then 0x90 else 0x80, if b = 0xF4 then 0x8F else 0xBF), (0x80, 0xBF), (0x80, 0xBF)]
  else none

/-- The bytes begin with ones within the bounds. -/
def within : List (ℕ × ℕ) → List UInt8 → Bool
  | [], _ => true
  | _ :: _, [] => false
  | (lower, upper) :: bounds, b :: bs => decide (lower ≤ b.toNat ∧ b.toNat ≤ upper) && within bounds bs

/-- The length of the sequence that the bytes begin with. -/
def sequenceLength : List UInt8 → Option ℕ
  | [] => none
  | b :: bs => (continuation b.toNat).bind fun bounds => if within bounds bs then some (bounds.length + 1) else none

/-- The bytes of U+FFFD. -/
def replacement : List UInt8 := [0xEF, 0xBF, 0xBD]

/-- The loop of `repair`, with the number of bytes of a sequence that it has begun. -/
def repairFrom : ℕ → List UInt8 → List UInt8
  | _, [] => []
  | skip + 1, b :: bs => b :: repairFrom skip bs
  | 0, b :: bs =>
    match sequenceLength (b :: bs) with
    | some n => b :: repairFrom (n - 1) bs
    | none => replacement ++ repairFrom 0 bs

/-- Each byte that is in no sequence is replaced. -/
def repair (bytes : List UInt8) : List UInt8 := repairFrom 0 bytes

theorem length_le_repairFrom (skip : ℕ) (bytes : List UInt8) : bytes.length ≤ (repairFrom skip bytes).length := by
  induction bytes generalizing skip with
  | nil => exact Nat.zero_le _
  | cons b bs ih =>
    cases skip with
    | succ skip =>
      rw [repairFrom]
      exact Nat.succ_le_succ (ih skip)
    | zero =>
      rw [repairFrom]
      split
      case h_1 n _ => exact Nat.succ_le_succ (ih _)
      case h_2 =>
        have hrest := ih 0
        simp only [replacement, List.length_cons, List.length_append, List.length_nil]
        omega

variable (bytes : List UInt8)

theorem length_le_repair : bytes.length ≤ (repair bytes).length := length_le_repairFrom 0 bytes

theorem repairFrom_append (l bytes : List UInt8) : repairFrom l.length (l ++ bytes) = l ++ repairFrom 0 bytes := by
  induction l with
  | nil => rfl
  | cons b l ih => rw [List.cons_append, List.length_cons, repairFrom, ih, List.cons_append]

/-- A character is a sequence. -/
theorem sequenceLength_utf8EncodeChar :
    sequenceLength (String.utf8EncodeChar c ++ bytes) = some (String.utf8EncodeChar c).length := by
  have hvalid := c.valid
  simp only [UInt32.isValidChar, Nat.isValidChar] at hvalid
  unfold String.utf8EncodeChar
  dsimp only
  generalize c.val.toNat = v at hvalid ⊢
  -- one case for each length, from one byte to four
  split
  · have hb : (UInt8.ofNat v).toNat = v := toNat_ofNat (by omega)
    have hbounds : continuation v = some [] := by
      rw [continuation, if_pos (by omega)]
    simp [sequenceLength, hb, hbounds, within]
  split
  · have hb1 : (UInt8.ofNat (v / 64 % 0x20 + 0xc0)).toNat = v / 64 + 0xc0 :=
      toNat_lead (by omega) (by decide)
    have hb2 := toNat_continuation v
    have hbounds : continuation (v / 64 + 0xc0) = some [(0x80, 0xBF)] := by
      rw [continuation, if_neg (by omega), if_pos (by omega)]
    have hwithin : 0x80 ≤ v % 0x40 + 0x80 ∧ v % 0x40 + 0x80 ≤ 0xBF := by omega
    simp only [sequenceLength, List.cons_append, List.nil_append, hb1, hbounds, Option.bind_some, within, hb2, hwithin]
    rfl
  split
  · have hb1 : (UInt8.ofNat (v / 4096 % 0x10 + 0xe0)).toNat = v / 4096 + 0xe0 :=
      toNat_lead (by omega) (by decide)
    have hb2 := toNat_continuation (v / 64)
    have hb3 := toNat_continuation v
    have hbounds : continuation (v / 4096 + 0xe0) = some [(if v / 4096 + 0xe0 = 0xE0 then 0xA0 else 0x80,
        if v / 4096 + 0xe0 = 0xED then 0x9F else 0xBF), (0x80, 0xBF)] := by
      rw [continuation, if_neg (by omega), if_neg (by omega), if_pos (by omega)]
    have hsecond : (if v / 4096 + 0xe0 = 0xE0 then 0xA0 else 0x80) ≤ v / 64 % 0x40 + 0x80 ∧
        v / 64 % 0x40 + 0x80 ≤ (if v / 4096 + 0xe0 = 0xED then 0x9F else 0xBF) := by
      constructor <;> split <;> omega
    have hthird : 0x80 ≤ v % 0x40 + 0x80 ∧ v % 0x40 + 0x80 ≤ 0xBF := by omega
    simp only [sequenceLength, List.cons_append, List.nil_append, hb1, hbounds, Option.bind_some, within, hb2, hb3,
      hsecond, hthird]
    rfl
  · have hb1 : (UInt8.ofNat (v / 262144 % 0x08 + 0xf0)).toNat = v / 262144 + 0xf0 :=
      toNat_lead (by omega) (by decide)
    have hb2 := toNat_continuation (v / 4096)
    have hb3 := toNat_continuation (v / 64)
    have hb4 := toNat_continuation v
    have hbounds : continuation (v / 262144 + 0xf0) = some [(if v / 262144 + 0xf0 = 0xF0 then 0x90 else 0x80,
        if v / 262144 + 0xf0 = 0xF4 then 0x8F else 0xBF), (0x80, 0xBF), (0x80, 0xBF)] := by
      rw [continuation, if_neg (by omega), if_neg (by omega), if_neg (by omega), if_pos (by omega)]
    have hsecond : (if v / 262144 + 0xf0 = 0xF0 then 0x90 else 0x80) ≤ v / 4096 % 0x40 + 0x80 ∧
        v / 4096 % 0x40 + 0x80 ≤ (if v / 262144 + 0xf0 = 0xF4 then 0x8F else 0xBF) := by
      constructor <;> split <;> omega
    have hthird : 0x80 ≤ v / 64 % 0x40 + 0x80 ∧ v / 64 % 0x40 + 0x80 ≤ 0xBF := by omega
    have hfourth : 0x80 ≤ v % 0x40 + 0x80 ∧ v % 0x40 + 0x80 ≤ 0xBF := by omega
    simp only [sequenceLength, List.cons_append, List.nil_append, hb1, hbounds, Option.bind_some, within, hb2, hb3, hb4,
      hsecond, hthird, hfourth]
    rfl

/-- Valid text is left alone. -/
theorem repair_encode (s : List Char) : repair (encode s) = encode s := by
  induction s with
  | nil => rfl
  | cons c s ih =>
    have hlen := sequenceLength_utf8EncodeChar c (encode s)
    rw [encode_cons]
    obtain ⟨b, bs, hbytes⟩ := List.exists_cons_of_ne_nil (utf8EncodeChar_ne_nil c)
    rw [hbytes, List.cons_append] at hlen
    rw [hbytes, List.cons_append, repair, repairFrom, hlen]
    show b :: repairFrom bs.length (bs ++ encode s) = _
    rw [repairFrom_append]
    exact congrArg (fun t => b :: (bs ++ t)) ih

/-! ## Decoding in pieces

A decoder that starts anew with each piece emits at least one character for each byte that begins a sequence,
and one more for a piece that begins inside a sequence. -/

/-- A byte inside a sequence. -/
def isTail (b : UInt8) : Bool := 0x80 ≤ b.toNat ∧ b.toNat ≤ 0xBF

/-- The number of bytes that begin a sequence. -/
def starts (bytes : List UInt8) : ℕ := bytes.countP fun b => !isTail b

/-- A character is one byte that begins a sequence, and the rest of it. -/
theorem exists_utf8EncodeChar :
    ∃ b tails, String.utf8EncodeChar c = b :: tails ∧ isTail b = false ∧ ∀ t ∈ tails, isTail t = true := by
  have hvalid := c.valid
  simp only [UInt32.isValidChar, Nat.isValidChar] at hvalid
  have hfirst : ∀ n, n < 256 → ¬ (0x80 ≤ n ∧ n ≤ 0xBF) → isTail (UInt8.ofNat n) = false := by
    intro n hn hno
    rw [isTail, toNat_ofNat hn]
    exact decide_eq_false hno
  have htail : ∀ n, isTail (UInt8.ofNat (n % 0x40 + 0x80)) = true := by
    intro n
    rw [isTail, toNat_ofNat (by omega)]
    exact decide_eq_true (by omega)
  unfold String.utf8EncodeChar
  dsimp only
  generalize c.val.toNat = v at hvalid ⊢
  split
  · exact ⟨_, _, rfl, hfirst _ (by omega) (by omega), fun t ht => (by cases ht)⟩
  split
  · refine ⟨_, _, rfl, hfirst _ (by omega) (by omega), ?_⟩
    simp only [List.forall_mem_cons, htail, List.not_mem_nil, false_imp_iff, implies_true, and_self]
  split
  · refine ⟨_, _, rfl, hfirst _ (by omega) (by omega), ?_⟩
    simp only [List.forall_mem_cons, htail, List.not_mem_nil, false_imp_iff, implies_true, and_self]
  · refine ⟨_, _, rfl, hfirst _ (by omega) (by omega), ?_⟩
    simp only [List.forall_mem_cons, htail, List.not_mem_nil, false_imp_iff, implies_true, and_self]

theorem starts_append (x y : List UInt8) : starts (x ++ y) = starts x + starts y := List.countP_append

theorem starts_encode (s : List Char) : starts (encode s) = s.length := by
  induction s with
  | nil => rfl
  | cons c s ih =>
    obtain ⟨b, tails, hbytes, hb, htails⟩ := exists_utf8EncodeChar c
    have hnone : starts tails = 0 := List.countP_eq_zero.mpr fun t ht => by rw [htails t ht]; exact Bool.false_ne_true
    rw [encode_cons, starts_append, ih, hbytes, starts, List.countP_cons_of_pos (by rw [hb]; rfl)]
    show starts tails + 1 + s.length = _
    rw [hnone, List.length_cons]
    omega

/-- The byte that a sequence waits for is inside it. -/
def WaitsInside (p : Utf8Pending) : Prop := 0x80 ≤ p.lower ∧ p.upper ≤ 0xBF

/-- A first byte is emitted as one character at once, or its sequence is waited for. -/
theorem utf8Start_cases (b : ℕ) :
    (∃ p, utf8Start b = ([], some p) ∧ WaitsInside p) ∨ ∃ c, utf8Start b = ([c], none) := by
  unfold utf8Start
  split
  · exact .inr ⟨_, rfl⟩
  split
  · exact .inl ⟨_, rfl, le_rfl, le_rfl⟩
  split
  · exact .inl ⟨_, rfl, by dsimp only; split <;> omega, by dsimp only; split <;> omega⟩
  split
  · exact .inl ⟨_, rfl, by dsimp only; split <;> omega, by dsimp only; split <;> omega⟩
  · exact .inr ⟨_, rfl⟩

theorem starts_cons_le (b : UInt8) (bytes : List UInt8) : starts (b :: bytes) ≤ starts bytes + 1 := by
  rw [starts, List.countP_cons]
  show starts bytes + _ ≤ _
  split <;> omega

/-- A character is emitted for each byte that begins a sequence, and for a sequence that is waited for. -/
theorem starts_le_length_utf8LossyFrom {pending : Option Utf8Pending} (hpending : ∀ p ∈ pending, WaitsInside p)
    (bytes : List UInt8) :
    starts bytes + pending.toList.length ≤ (utf8LossyFrom pending bytes).length := by
  induction bytes generalizing pending with
  | nil =>
    cases pending with
    | none => exact le_rfl
    | some p => exact le_rfl
  | cons b bytes ih =>
    have hle := starts_cons_le b bytes
    -- the first byte of a sequence
    have hstart : starts bytes + 1 ≤ (utf8LossyFrom none (b :: bytes)).length := by
      rw [utf8LossyFrom]
      rcases utf8Start_cases b.toNat with ⟨p, hp, hinside⟩ | ⟨c, hc⟩
      · rw [hp]
        exact ih fun q hq => Option.some.inj hq ▸ hinside
      · rw [hc, List.singleton_append, List.length_cons]
        exact Nat.succ_le_succ (@ih none fun q hq => (by cases hq))
    cases pending with
    | none => exact hle.trans hstart
    | some p =>
      rw [utf8LossyFrom]
      split
      case isTrue hin =>
        have hinside := hpending p rfl
        have htail : starts (b :: bytes) = starts bytes := by
          have hb : isTail b = true := decide_eq_true ⟨hinside.1.trans hin.1, hin.2.trans hinside.2⟩
          rw [starts, List.countP_cons_of_neg (by rw [hb]; exact Bool.false_ne_true), starts]
        rw [htail]
        dsimp only
        split
        · rw [List.length_cons]
          exact Nat.succ_le_succ (@ih none fun q hq => (by cases hq))
        · refine @ih (some ⟨p.missing - 1, _, 0x80, 0xBF⟩) fun q hq => ?_
          obtain rfl := Option.some.inj hq
          exact ⟨le_rfl, le_rfl⟩
      case isFalse =>
        rw [List.cons_append, List.length_cons, ← utf8LossyFrom]
        exact Nat.succ_le_succ (hle.trans hstart)

theorem starts_le_length_fromUtf8Lossy : starts bytes ≤ (fromUtf8Lossy bytes).length :=
  @starts_le_length_utf8LossyFrom none (fun q hq => (by cases hq)) bytes

/-- Bytes that begin inside a sequence are emitted as more characters than begin in them. -/
theorem starts_lt_length_fromUtf8Lossy {b : UInt8} (hb : isTail b = true) (bytes : List UInt8) :
    starts (b :: bytes) < (fromUtf8Lossy (b :: bytes)).length := by
  have hnone : utf8Start b.toNat = (['\uFFFD'], none) := by
    have hrange := of_decide_eq_true hb
    unfold utf8Start
    rw [if_neg (by omega), if_neg (by omega), if_neg (by omega), if_neg (by omega)]
  rw [starts, List.countP_cons_of_neg (by rw [hb]; exact Bool.false_ne_true), fromUtf8Lossy, utf8LossyFrom, hnone,
    List.singleton_append, List.length_cons]
  exact Nat.lt_succ_of_le (starts_le_length_fromUtf8Lossy bytes)

/-- Where nothing is invalid, nothing is replaced. -/
theorem utf8LossyFrom_of_decodeFrom {pending : Option Utf8Pending} {bytes : List UInt8}
    (h : decodeFrom pending bytes = (s, false)) : utf8LossyFrom pending bytes = s := by
  induction bytes generalizing pending s with
  | nil =>
    cases pending with
    | none => exact congrArg Prod.fst h
    | some p => cases h
  | cons b bytes ih =>
    cases pending with
    | none =>
      rw [decodeFrom] at h
      rw [utf8LossyFrom]
      -- an invalid byte would have set the flag
      by_cases hvalid : b.toNat < 0x80 ∨ 0xC2 ≤ b.toNat ∧ b.toNat ≤ 0xF4
      · rw [start, if_pos hvalid] at h
        obtain ⟨hs, hflag⟩ := Prod.mk.inj h
        rw [← hs, ih (Prod.ext rfl hflag)]
      · rw [start, if_neg hvalid] at h
        cases (Prod.mk.inj h).2
    | some p =>
      rw [decodeFrom] at h
      rw [utf8LossyFrom]
      split at h
      case isTrue hin =>
        rw [if_pos hin]
        dsimp only at h ⊢
        split at h
        case isTrue hlast =>
          obtain ⟨hs, hflag⟩ := Prod.mk.inj h
          rw [if_pos hlast, ← hs, ih (Prod.ext rfl hflag)]
        case isFalse hmore => rw [if_neg hmore, ih h]
      case isFalse => cases (Prod.mk.inj h).2

theorem fromUtf8Lossy_encode (s : List Char) : fromUtf8Lossy (encode s) = s :=
  utf8LossyFrom_of_decodeFrom (decode_encode s)

/-- A beginning of a text that is not followed by the inside of a sequence is a text. -/
theorem exists_encode_of_append {x y : List UInt8} (h : x ++ y = encode s)
    (hy : ∀ b ∈ y.head?, isTail b = false) : ∃ t, x = encode t := by
  induction s generalizing x with
  | nil => exact ⟨[], List.append_eq_nil_iff.mp h |>.1⟩
  | cons c s ih =>
    rw [encode_cons] at h
    rcases List.append_eq_append_iff.mp h with ⟨u, hu, hyu⟩ | ⟨u, hx, hrest⟩
    · -- the piece ends in the bytes of `c`
      obtain ⟨b, tails, hbytes, -, htails⟩ := exists_utf8EncodeChar c
      cases x with
      | nil => exact ⟨[], rfl⟩
      | cons a x =>
        cases u with
        | nil => exact ⟨[c], by rw [encode_cons, encode_nil, hu, List.append_nil, List.append_nil]⟩
        | cons d u =>
          rw [hbytes, List.cons_append, List.cons.injEq] at hu
          have hd : d ∈ tails := hu.2 ▸ List.mem_append_right x List.mem_cons_self
          have hhead := hy d (by rw [hyu]; rfl)
          rw [htails d hd] at hhead
          cases hhead
    · obtain ⟨t, rfl⟩ := ih hrest.symm
      exact ⟨c :: t, by rw [hx, encode_cons]⟩

theorem encode_injective : Function.Injective encode := by
  intro s t h
  have hdecode := congrArg decode h
  rw [decode_encode, decode_encode] at hdecode
  exact (Prod.mk.inj hdecode).1

/-- What follows a beginning of a text is a text. -/
theorem exists_of_encode_append {t : List Char} {y : List UInt8} (h : encode t ++ y = encode s) :
    ∃ s', y = encode s' ∧ s = t ++ s' := by
  induction t generalizing s with
  | nil => exact ⟨s, h, rfl⟩
  | cons c t ih =>
    cases s with
    | nil =>
      have hnil := (List.append_eq_nil_iff.mp h).1
      exact absurd hnil (encode_ne_nil (List.cons_ne_nil c t))
    | cons d s =>
      rw [encode_cons, encode_cons, List.append_assoc] at h
      have hdecode := congrArg (fun bytes => (decodeFrom none bytes).1) h
      simp only [decodeFrom_utf8EncodeChar, List.cons.injEq] at hdecode
      obtain rfl := hdecode.1
      obtain ⟨s', hy, rfl⟩ := ih (List.append_cancel_left h)
      exact ⟨s', hy, rfl⟩

/-- Where each number is bounded by another and the sums are equal, the numbers are. -/
private theorem le_of_sum_le {α : Type*} {f g : α → ℕ} {l : List α} (hle : ∀ x ∈ l, f x ≤ g x)
    (hsum : (l.map g).sum ≤ (l.map f).sum) : ∀ x ∈ l, g x ≤ f x := by
  induction l with
  | nil => exact fun x hx => (by cases hx)
  | cons a l ih =>
    obtain ⟨ha, hl⟩ := List.forall_mem_cons.mp hle
    rw [List.map_cons, List.map_cons, List.sum_cons, List.sum_cons] at hsum
    have htail : (l.map f).sum ≤ (l.map g).sum := List.sum_le_sum hl
    exact List.forall_mem_cons.mpr ⟨by omega, ih hl (by omega)⟩

/-- Decoding the pieces of a text apart gives the text exactly when no piece ends inside a character. -/
theorem fromUtf8Lossy_pieces_iff {pieces : List (List UInt8)} (hpieces : ∀ x ∈ pieces, x ≠ [])
    (h : pieces.flatten = encode s) :
    (pieces.map fromUtf8Lossy).flatten = s ↔ ∀ k, ∃ t, (pieces.take k).flatten = encode t := by
  constructor
  · intro hs k
    have hlen : (pieces.map fun x => (fromUtf8Lossy x).length).sum = s.length := by
      rw [← hs, List.length_flatten, List.map_map]
      rfl
    have hstarts : (pieces.map starts).sum = s.length := by
      rw [← starts_encode, ← h, starts, List.countP_flatten]
      rfl
    -- no piece gives fewer characters than start in it, and the sums agree
    have hall := le_of_sum_le (fun x (_ : x ∈ pieces) => starts_le_length_fromUtf8Lossy x) (by rw [hlen, hstarts])
    have hsplit : (pieces.take k).flatten ++ (pieces.drop k).flatten = encode s := by
      rw [← List.flatten_append, List.take_append_drop, h]
    refine exists_encode_of_append hsplit ?_
    intro b hb
    cases hdrop : pieces.drop k with
    | nil => rw [hdrop] at hb; cases hb
    | cons x rest =>
      have hx : x ∈ pieces := List.mem_of_mem_drop (hdrop ▸ List.mem_cons_self)
      obtain ⟨a, x', rfl⟩ := List.exists_cons_of_ne_nil (hpieces x hx)
      rw [hdrop] at hb
      obtain rfl : a = b := Option.some.inj hb
      rw [← Bool.not_eq_true]
      exact fun htail => Nat.not_lt.mpr (hall _ hx) (starts_lt_length_fromUtf8Lossy htail x')
  · intro hbounds
    -- on the pieces: each is the encoding of a text, and so is the rest
    induction pieces generalizing s with
    | nil => exact encode_injective h
    | cons x rest ih =>
      obtain ⟨t, ht⟩ := hbounds 1
      have hx : x = encode t := by simpa using ht
      rw [List.flatten_cons, hx] at h
      obtain ⟨s', hrest, rfl⟩ := exists_of_encode_append h
      rw [List.map_cons, List.flatten_cons, hx, fromUtf8Lossy_encode]
      refine congrArg (t ++ ·) (ih (fun y hy => hpieces y (List.mem_cons_of_mem x hy)) hrest fun k => ?_)
      obtain ⟨t', ht'⟩ := hbounds (k + 1)
      rw [List.take_succ_cons, List.flatten_cons, hx] at ht'
      obtain ⟨u, hu, -⟩ := exists_of_encode_append ht'
      exact ⟨u, hu⟩

end Builderbot.Lib.Utf8
