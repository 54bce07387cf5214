import Builderbot.Lib.Utf8

/-!
# Byte offsets in a text

Rust strings are indexed by bytes. A position is valid when it is the length of what stands before it
in the text; slicing elsewhere panics, which is `none` here. `find` and `matchIndices` give valid
positions, so a slice at one of them is the rest of a split of the text.
-/

namespace Builderbot.Lib.ByteText

open Builderbot.Lib.Text

/-- `str::len`. -/
def byteLength (s : List Char) : ℕ := (s.map Char.utf8Size).sum

@[simp] theorem byteLength_nil : byteLength [] = 0 := rfl

@[simp] theorem byteLength_cons (c : Char) (s : List Char) :
    byteLength (c :: s) = c.utf8Size + byteLength s := rfl

@[simp] theorem byteLength_append (s t : List Char) :
    byteLength (s ++ t) = byteLength s + byteLength t := by
  simp [byteLength]

variable {s : List Char}

theorem byteLength_eq_zero : byteLength s = 0 ↔ s = [] := by
  cases s with
  | nil => simp
  | cons c s =>
    have hpos := c.utf8Size_pos
    simp only [byteLength_cons, reduceCtorEq, iff_false]
    omega

variable {a b a' b' : List Char}

/-- Two beginnings of a text of the same length are equal. -/
theorem append_inj_byteLength (h : a ++ b = a' ++ b')
    (hlen : byteLength a = byteLength a') : a = a' ∧ b = b' := by
  induction a generalizing a' with
  | nil =>
    obtain rfl := byteLength_eq_zero.mp hlen.symm
    exact ⟨rfl, h⟩
  | cons c a ih =>
    cases a' with
    | nil => exact absurd (byteLength_eq_zero.mp hlen) (List.cons_ne_nil c a)
    | cons c' a' =>
      rw [List.cons_append, List.cons_append, List.cons.injEq] at h
      obtain ⟨rfl, h⟩ := h
      rw [byteLength_cons, byteLength_cons, Nat.add_left_cancel_iff] at hlen
      obtain ⟨rfl, rfl⟩ := ih h hlen
      exact ⟨rfl, rfl⟩

/-- A shorter beginning of a text is a beginning of a longer one. -/
theorem exists_append_of_byteLength_le (h : a ++ b = a' ++ b')
    (hle : byteLength a ≤ byteLength a') : ∃ m, a' = a ++ m ∧ b = m ++ b' := by
  rcases List.append_eq_append_iff.mp h with ⟨m, rfl, rfl⟩ | ⟨m, rfl, rfl⟩
  · exact ⟨m, rfl, rfl⟩
  · have hm : m = [] := by
      rw [byteLength_append] at hle
      exact byteLength_eq_zero.mp (by omega)
    subst hm
    exact ⟨[], by simp, by simp⟩

/-! ## Slices -/

/-- `&s[n..]`. -/
def sliceFrom : ℕ → List Char → Option (List Char)
  | 0, s => some s
  | _ + 1, [] => none
  | n + 1, c :: s => if c.utf8Size ≤ n + 1 then sliceFrom (n + 1 - c.utf8Size) s else none

/-- `&s[..n]`. -/
def sliceTo : ℕ → List Char → Option (List Char)
  | 0, _ => some []
  | _ + 1, [] => none
  | n + 1, c :: s =>
    if c.utf8Size ≤ n + 1 then (sliceTo (n + 1 - c.utf8Size) s).map (c :: ·) else none

/-- `&s[m..n]`. -/
def slice (m n : ℕ) (s : List Char) : Option (List Char) := do
  if n < m then none else sliceTo (n - m) (← sliceFrom m s)

theorem sliceFrom_cons_add (c : Char) (n : ℕ) (s : List Char) :
    sliceFrom (c.utf8Size + n) (c :: s) = sliceFrom n s := by
  obtain ⟨k, hk⟩ := Nat.exists_eq_add_one_of_ne_zero c.utf8Size_pos.ne'
  have hsum : c.utf8Size + n = (k + n) + 1 := by omega
  rw [hsum, sliceFrom, if_pos (by omega)]
  congr 1
  omega

theorem sliceTo_cons_add (c : Char) (n : ℕ) (s : List Char) :
    sliceTo (c.utf8Size + n) (c :: s) = (sliceTo n s).map (c :: ·) := by
  obtain ⟨k, hk⟩ := Nat.exists_eq_add_one_of_ne_zero c.utf8Size_pos.ne'
  have hsum : c.utf8Size + n = (k + n) + 1 := by omega
  rw [hsum, sliceTo, if_pos (by omega)]
  congr 2
  omega

@[simp] theorem sliceFrom_append (a b : List Char) : sliceFrom (byteLength a) (a ++ b) = some b := by
  induction a with
  | nil => cases b <;> rfl
  | cons c a ih => rw [byteLength_cons, List.cons_append, sliceFrom_cons_add, ih]

@[simp] theorem sliceTo_append (a b : List Char) : sliceTo (byteLength a) (a ++ b) = some a := by
  induction a with
  | nil => cases b <;> rfl
  | cons c a ih =>
    rw [byteLength_cons, List.cons_append, sliceTo_cons_add, ih]
    rfl

theorem slice_append (a b c : List Char) :
    slice (byteLength a) (byteLength a + byteLength b) (a ++ (b ++ c)) = some b := by
  have hlt : ¬ byteLength a + byteLength b < byteLength a := by omega
  rw [slice, if_neg hlt, sliceFrom_append, Nat.add_sub_cancel_left]
  exact sliceTo_append b c

/-! ## Searching -/

/-- `str::find`. -/
def find (pat s : List Char) : Option ℕ := (splitOnce pat s).map fun r => byteLength r.1

variable {pat : List Char}

theorem find_eq_some_iff {n : ℕ} :
    find pat s = some n ↔ ∃ a b, splitOnce pat s = some (a, b) ∧ n = byteLength a := by
  rw [find, Option.map_eq_some_iff]
  constructor
  · rintro ⟨⟨a, b⟩, h, rfl⟩
    exact ⟨a, b, h, rfl⟩
  · rintro ⟨a, b, h, rfl⟩
    exact ⟨(a, b), h, rfl⟩

theorem find_eq_none_iff : find pat s = none ↔ splitOnce pat s = none := by
  rw [find, Option.map_eq_none_iff]

/-- The loop of `matchIndices` at the byte `off`, `skip` characters before the end of a match. -/
def matchIndicesFrom (pat : List Char) (off skip : ℕ) : List Char → List ℕ
  | [] => []
  | c :: s =>
    if 0 < skip then matchIndicesFrom pat (off + c.utf8Size) (skip - 1) s
    else if pat <+: c :: s then
      off :: matchIndicesFrom pat (off + c.utf8Size) (pat.length - 1) s
    else matchIndicesFrom pat (off + c.utf8Size) 0 s

/-- The positions of `str::match_indices`, where matches do not overlap. -/
def matchIndices (pat s : List Char) : List ℕ := matchIndicesFrom pat 0 0 s

/-- A position of a match is valid, and the match begins there. -/
theorem exists_of_mem_matchIndices {n : ℕ} (h : n ∈ matchIndices pat s) :
    ∃ a b, s = a ++ pat ++ b ∧ byteLength a = n := by
  -- generalised to any offset, and to what is still to be skipped
  have hfrom : ∀ (s : List Char) (off skip : ℕ), n ∈ matchIndicesFrom pat off skip s →
      ∃ a b, s = a ++ pat ++ b ∧ off + byteLength a = n := by
    intro s
    induction s with
    | nil =>
      intro off skip h
      exact absurd h List.not_mem_nil
    | cons c s ih =>
      have hlater : ∀ off skip, n ∈ matchIndicesFrom pat (off + c.utf8Size) skip s →
          ∃ a b, c :: s = a ++ pat ++ b ∧ off + byteLength a = n := by
        intro off skip h
        obtain ⟨a, b, rfl, hn⟩ := ih _ _ h
        refine ⟨c :: a, b, rfl, ?_⟩
        rw [byteLength_cons]
        omega
      intro off skip h
      rw [matchIndicesFrom] at h
      split at h
      · exact hlater _ _ h
      · split at h
        · rename_i hpre
          rcases List.mem_cons.mp h with rfl | h
          · obtain ⟨b, hb⟩ := hpre
            exact ⟨[], b, hb.symm, rfl⟩
          · exact hlater _ _ h
        · exact hlater _ _ h
  obtain ⟨a, b, hs, hn⟩ := hfrom s 0 0 h
  exact ⟨a, b, hs, by omega⟩

/-- A run of one character, of the length of the pattern and no longer on the left, is found: no
match reaches into it. -/
theorem mem_matchIndices_replicate {c : Char} {k : ℕ} (ha : a.getLast? ≠ some c) :
    byteLength a ∈ matchIndices (List.replicate (k + 1) c) (a ++ List.replicate (k + 1) c ++ b) := by
  have hfrom : ∀ (a : List Char) (off skip : ℕ), a.getLast? ≠ some c →
      (∀ d ∈ (a ++ List.replicate (k + 1) c ++ b).take skip, d = c) → (a = [] → skip = 0) →
      off + byteLength a ∈
        matchIndicesFrom (List.replicate (k + 1) c) off skip (a ++ List.replicate (k + 1) c ++ b) := by
    intro a
    induction a with
    | nil =>
      intro off skip _ _ hskip
      have hpre : List.replicate (k + 1) c <+: List.replicate (k + 1) c ++ b := List.prefix_append _ b
      rw [hskip rfl, List.nil_append]
      rw [List.replicate_succ, List.cons_append] at hpre ⊢
      rw [matchIndicesFrom, if_neg (by omega), if_pos hpre]
      exact List.mem_cons_self
    | cons d a ih =>
      intro off skip hlast hrun hskip
      have hlast' : a.getLast? ≠ some c := by
        cases a with
        | nil => simp
        | cons e a => rwa [List.getLast?_cons_cons] at hlast
      have hoff : off + byteLength (d :: a) = (off + d.utf8Size) + byteLength a := by
        rw [byteLength_cons]
        omega
      -- the last character before the run is no part of a match
      have hshort : a = [] → d ≠ c := by
        rintro rfl rfl
        exact hlast rfl
      rw [List.cons_append, List.cons_append, matchIndicesFrom, hoff]
      split
      · rename_i hpos
        apply ih _ _ hlast'
        · intro e he
          apply hrun
          obtain ⟨k, rfl⟩ := Nat.exists_eq_add_one_of_ne_zero hpos.ne'
          rw [List.cons_append, List.cons_append, List.take_succ_cons]
          exact List.mem_cons_of_mem d he
        · intro ha
          have hd : d = c := by
            apply hrun
            obtain ⟨k, rfl⟩ := Nat.exists_eq_add_one_of_ne_zero hpos.ne'
            rw [List.cons_append, List.cons_append, List.take_succ_cons]
            exact List.mem_cons_self
          exact absurd hd (hshort ha)
      · split
        · rename_i hpre
          rw [List.replicate_succ, List.cons_prefix_cons] at hpre
          apply List.mem_cons_of_mem
          apply ih _ _ hlast'
          · rw [List.length_replicate, Nat.add_sub_cancel]
            have htake := List.prefix_iff_eq_take.mp hpre.2
            rw [List.length_replicate, ← List.replicate_succ] at htake
            rw [← htake]
            exact fun e he => List.eq_of_mem_replicate he
          · exact fun ha => absurd hpre.1.symm (hshort ha)
        · exact ih _ _ hlast' (by simp) (fun _ => rfl)
  have hmem := hfrom a 0 0 ha (by simp) (fun _ => rfl)
  rwa [Nat.zero_add] at hmem

theorem find_newline {l : List Char} (hl : '\n' ∉ l) (r : List Char) :
    find ['\n'] (l ++ '\n' :: r) = some (byteLength l) := by
  have hassoc : l ++ '\n' :: r = l ++ ['\n'] ++ r := by rw [List.append_assoc, List.singleton_append]
  rw [hassoc]
  exact find_eq_some_iff.mpr ⟨l, r, splitOnce_append hl, rfl⟩

theorem find_newline_of_notMem (h : '\n' ∉ s) : find ['\n'] s = none :=
  find_eq_none_iff.mpr (splitOnce_eq_none h)

/-- A text has a first line feed or none. -/
theorem find_newline_cases (s : List Char) :
    (∃ l r, '\n' ∉ l ∧ s = l ++ '\n' :: r ∧ find ['\n'] s = some (byteLength l)) ∨
      '\n' ∉ s ∧ find ['\n'] s = none := by
  by_cases h : '\n' ∈ s
  · obtain ⟨l, r, rfl, hl⟩ := List.eq_append_cons_of_mem h
    exact .inl ⟨l, r, hl, rfl, find_newline hl r⟩
  · exact .inr ⟨h, find_newline_of_notMem h⟩

/-- Occurrences of a text that does not begin with an end of itself do not overlap. -/
theorem le_of_no_border (hpat : ∀ k < pat.length, 0 < k → ¬ pat.drop k <+: pat)
    (h : a ++ pat ++ b = a' ++ pat ++ b') (hlt : byteLength a < byteLength a') :
    byteLength a + byteLength pat ≤ byteLength a' := by
  by_contra hnot
  rw [List.append_assoc, List.append_assoc] at h
  obtain ⟨m, rfl, hm⟩ := exists_append_of_byteLength_le h (Nat.le_of_lt hlt)
  rw [byteLength_append] at hlt hnot
  obtain ⟨t, rfl, ht⟩ := exists_append_of_byteLength_le hm.symm (by omega)
  have hne : m ≠ [] := by
    rintro rfl
    rw [byteLength_nil] at hlt
    omega
  have htne : t ≠ [] := by
    rintro rfl
    rw [List.append_nil] at hnot
    omega
  have hlen := List.length_pos_of_ne_nil htne
  apply hpat m.length (by rw [List.length_append]; omega) (List.length_pos_of_ne_nil hne)
  rw [List.drop_left]
  have hprefix : t <+: (m ++ t) ++ b' := ht ▸ List.prefix_append t b
  exact List.prefix_of_prefix_length_le hprefix (List.prefix_append _ b') (by rw [List.length_append]; omega)

/-! ## Bytes -/

theorem byteLength_eq_length_encode (s : List Char) : byteLength s = (Utf8.encode s).length := by
  induction s with
  | nil => rfl
  | cons c s ih =>
    rw [byteLength_cons, Utf8.encode_cons, List.length_append, String.length_utf8EncodeChar, ih]

/-- The byte before a position is a line feed when the character before it is. -/
theorem byte_before (ha : a ≠ []) (b : List Char) :
    ∃ x, (Utf8.encode (a ++ b))[byteLength a - 1]? = some x ∧ (x = 10 ↔ a.getLast? = some '\n') := by
  obtain ⟨a', c, rfl⟩ := (List.eq_nil_or_concat a).resolve_left ha
  rw [List.concat_eq_append] at ha ⊢
  have hlen := String.length_utf8EncodeChar c
  have hpos := c.utf8Size_pos
  have hindex : byteLength (a' ++ [c]) - 1 = (Utf8.encode a').length + (c.utf8Size - 1) := by
    rw [byteLength_append, byteLength_cons, byteLength_nil, byteLength_eq_length_encode]
    omega
  have hlast : c.utf8Size - 1 < (String.utf8EncodeChar c).length := by omega
  rw [hindex, Utf8.encode_append, Utf8.encode_append, Utf8.encode_cons, Utf8.encode_nil, List.append_nil,
    List.append_assoc, List.getElem?_append_right (by omega), Nat.add_sub_cancel_left,
    List.getElem?_append_left hlast, List.getElem?_eq_getElem hlast]
  refine ⟨_, rfl, ?_⟩
  rw [List.getLast?_append, List.getLast?_singleton, Option.some_or, Option.some.injEq]
  constructor
  · intro hx
    exact Utf8.lineFeed_mem_utf8EncodeChar.mp (hx ▸ List.getElem_mem hlast)
  · rintro rfl
    rfl

/-! ## Lines with their terminators -/

/-- The loop of `linesInclusive`: `acc` holds the current line in reverse. -/
def linesInclusiveFrom (acc : List Char) : List Char → List (List Char)
  | [] => if acc = [] then [] else [acc.reverse]
  | c :: cs =>
    if c = '\n' then (c :: acc).reverse :: linesInclusiveFrom [] cs
    else linesInclusiveFrom (c :: acc) cs

/-- `split_inclusive('\n')`: the lines of a text with their terminators. -/
def linesInclusive (s : List Char) : List (List Char) := linesInclusiveFrom [] s

/-- A line without its terminator. -/
def chomp (raw : List Char) : List Char :=
  if raw.getLast? = some '\n' then stripCr raw.dropLast else raw

theorem lines_eq_map_chomp (s : List Char) : lines s = (linesInclusive s).map chomp := by
  have hfrom : ∀ acc, '\n' ∉ acc → linesFrom acc s = (linesInclusiveFrom acc s).map chomp := by
    induction s with
    | nil =>
      intro acc hacc
      rw [linesFrom, linesInclusiveFrom]
      split
      · rfl
      · have hlast : acc.reverse.getLast? ≠ some '\n' := by
          intro h
          exact hacc (List.mem_reverse.mp (List.mem_of_getLast? h))
        rw [List.map_singleton, chomp, if_neg hlast]
    | cons c s ih =>
      intro acc hacc
      rw [linesFrom, linesInclusiveFrom]
      split
      · rename_i hc
        rw [List.map_cons, ih [] List.not_mem_nil, chomp, if_pos (by simp [hc])]
        simp
      · rename_i hc
        apply ih
        rw [List.mem_cons, not_or]
        exact ⟨fun h => hc h.symm, hacc⟩
  exact hfrom [] List.not_mem_nil

@[simp] theorem flatten_linesInclusive (s : List Char) : (linesInclusive s).flatten = s := by
  have hfrom : ∀ acc, (linesInclusiveFrom acc s).flatten = acc.reverse ++ s := by
    induction s with
    | nil =>
      intro acc
      rw [linesInclusiveFrom]
      split
      · rename_i hacc
        simp [hacc]
      · simp
    | cons c s ih =>
      intro acc
      rw [linesInclusiveFrom]
      split
      · rw [List.flatten_cons, ih]
        simp
      · rw [ih]
        simp
  exact hfrom []

/-- Every line but the last has a terminator, and no line has a line feed before its end. -/
theorem linesInclusive_terminated {i : ℕ} {raw : List Char} (h : (linesInclusive s)[i]? = some raw) :
    ∃ l, '\n' ∉ l ∧ (raw = l ++ ['\n'] ∨ raw = l ∧ l ≠ [] ∧ (linesInclusive s).length = i + 1) := by
  -- generalised to a line that has begun
  have hfrom : ∀ (s acc : List Char) (i : ℕ), '\n' ∉ acc → (linesInclusiveFrom acc s)[i]? = some raw →
      ∃ l, '\n' ∉ l ∧ (raw = l ++ ['\n'] ∨ raw = l ∧ l ≠ [] ∧ (linesInclusiveFrom acc s).length = i + 1) := by
    intro s
    induction s with
    | nil =>
      intro acc i hacc h
      rw [linesInclusiveFrom] at h ⊢
      split at h
      · exact absurd h (by simp)
      · rename_i hne
        obtain ⟨rfl, rfl⟩ : i = 0 ∧ acc.reverse = raw := by
          cases i with
          | zero => exact ⟨rfl, by simpa using h⟩
          | succ i => exact absurd h (by simp)
        refine ⟨acc.reverse, by simpa using hacc, .inr ⟨rfl, by simpa using hne, ?_⟩⟩
        rw [if_neg hne]
        rfl
    | cons c s ih =>
      intro acc i hacc h
      rw [linesInclusiveFrom] at h ⊢
      split at h
      · rename_i hc
        rw [if_pos hc]
        cases i with
        | zero =>
          refine ⟨acc.reverse, by simpa using hacc, .inl ?_⟩
          rw [List.getElem?_cons_zero, Option.some.injEq] at h
          rw [← h, hc]
          simp
        | succ i =>
          rw [List.getElem?_cons_succ] at h
          obtain ⟨l, hl, hraw⟩ := ih [] i List.not_mem_nil h
          refine ⟨l, hl, hraw.imp_right ?_⟩
          rintro ⟨hraw, hne, hlen⟩
          exact ⟨hraw, hne, by rw [List.length_cons, hlen]⟩
      · rename_i hc
        rw [if_neg hc]
        apply ih (c :: acc) i _ h
        rw [List.mem_cons, not_or]
        exact ⟨fun h => hc h.symm, hacc⟩
  exact hfrom s [] i List.not_mem_nil h

end Builderbot.Lib.ByteText
