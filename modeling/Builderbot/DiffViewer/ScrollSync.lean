import Mathlib.Data.Rat.Floor
import Builderbot.Git.Hunks

/-!
# Rows of two panes that scroll together

`findAlignment` and `transferRow` of `packages/diff-viewer/src/lib/state/scrollController.svelte.ts`, for exact numbers: a
row of one pane is sent to a row of the other one through the alignment that it is in.

The alignments tile both files, so that one pane is the other one with the alignments turned around (`Tiles.flip`), and
everything is shown for the side `before`. A tiling is cut where two rows are in different alignments.
-/

namespace Builderbot.DiffViewer.ScrollSync

open Git (Span Tiles)

inductive Side where
  | before
  | after
deriving DecidableEq, Repr

def Side.other : Side → Side
  | .before => .after
  | .after => .before

def span (a : Git.Alignment) : Side → Span
  | .before => a.before
  | .after => a.after

/-- The alignment of a row. Past the end it is the last one. -/
def findAlignment (row : ℤ) (alignments : List Git.Alignment) (side : Side) : Option Git.Alignment :=
  (alignments.find? fun a => row < (span a side).stop).or alignments.getLast?

/-- The row on the other side, through the alignment. -/
def transferRow (row : ℤ) (alignment : Git.Alignment) (side : Side) : ℤ :=
  let source := span alignment side
  let target := span alignment side.other
  if source.start = row then target.start
  else if source.stop = row then target.stop
  else if source.stop < row then row - source.stop + target.stop
  else
    let sourceSize : ℤ := source.stop - source.start
    let targetSize : ℤ := target.stop - target.start
    if sourceSize = 0 then target.start
    else if targetSize = 0 then target.start
    else
      let offset := row - source.start
      let ratio : ℚ := offset / sourceSize
      let targetOffset := ⌊ratio * targetSize⌋
      min (target.start + targetOffset) (target.stop - 1)

/-- Where a row is sent to, if there are alignments. -/
def syncRow (alignments : List Git.Alignment) (side : Side) (row : ℤ) : Option ℤ :=
  (findAlignment row alignments side).map fun a => transferRow row a side

/-- The unchanged regions are as long on both sides. -/
def Paired (alignments : List Git.Alignment) : Prop :=
  ∀ x ∈ alignments, x.changed = false → x.before.stop - x.before.start = x.after.stop - x.after.start

/-! ## The other side -/

def flip (x : Git.Alignment) : Git.Alignment := ⟨x.after, x.before, x.changed⟩

theorem span_flip (x : Git.Alignment) (side : Side) : span (flip x) side = span x side.other := by
  cases side <;> rfl

theorem transferRow_flip (row : ℤ) (x : Git.Alignment) (side : Side) :
    transferRow row (flip x) side = transferRow row x side.other := by
  simp only [transferRow, span_flip]

theorem findAlignment_flip (row : ℤ) (alignments : List Git.Alignment) (side : Side) :
    findAlignment row (alignments.map flip) side = (findAlignment row alignments side.other).map flip := by
  rw [findAlignment, findAlignment, List.find?_map, List.getLast?_map, Option.map_or]
  have hspan : ((fun x : Git.Alignment => decide (row < (span x side).stop)) ∘ flip) =
      fun x => decide (row < (span x side.other).stop) := by
    funext x
    rw [Function.comp_apply, span_flip]
  rw [hspan]

theorem syncRow_flip (alignments : List Git.Alignment) (side : Side) (row : ℤ) :
    syncRow (alignments.map flip) side row = syncRow alignments side.other row := by
  rw [syncRow, syncRow, findAlignment_flip, Option.map_map]
  congr 1
  funext x
  exact transferRow_flip row x side

theorem Tiles.flip {n m b a : ℕ} {alignments : List Git.Alignment} (h : Tiles n m b a alignments) :
    Tiles m n a b (alignments.map flip) := by
  induction alignments generalizing b a with
  | nil => exact h.symm
  | cons x alignments ih => exact ⟨h.1.symm, h.2.1.symm, ih h.2.2⟩

theorem Paired.flip {alignments : List Git.Alignment} (h : Paired alignments) : Paired (alignments.map flip) := by
  intro x hx hchanged
  obtain ⟨y, hy, rfl⟩ := List.mem_map.mp hx
  exact (h y hy hchanged).symm

/-! ## One alignment -/

section Region

variable {x : Git.Alignment} {row row' : ℤ}

/-- How far into the region of the other side a row is sent. -/
def proportion (x : Git.Alignment) (row : ℤ) : ℤ :=
  ⌊((row - x.before.start : ℤ) / (x.before.stop - x.before.start : ℤ) : ℚ) * (x.after.stop - x.after.start : ℤ)⌋

theorem proportion_mono (hsize : x.before.start ≤ x.before.stop) (htarget : x.after.start ≤ x.after.stop)
    (hrow : row ≤ row') : proportion x row ≤ proportion x row' := by
  have hsource : (0 : ℚ) ≤ (x.before.stop - x.before.start : ℤ) := by
    exact_mod_cast Int.sub_nonneg_of_le (Int.ofNat_le.mpr hsize)
  have hlen : (0 : ℚ) ≤ (x.after.stop - x.after.start : ℤ) := by
    exact_mod_cast Int.sub_nonneg_of_le (Int.ofNat_le.mpr htarget)
  have hoffset : ((row - x.before.start : ℤ) : ℚ) ≤ (row' - x.before.start : ℤ) := by
    exact_mod_cast Int.sub_le_sub_right hrow _
  exact Int.floor_le_floor (mul_le_mul_of_nonneg_right (div_le_div_of_nonneg_right hoffset hsource) hlen)

theorem proportion_start : proportion x x.before.start = 0 := by
  rw [proportion, Int.sub_self, Int.cast_zero, zero_div, zero_mul, Int.floor_zero]

/-- A row of the region stays within the region of the other side. -/
theorem proportion_lt (htarget : x.after.start < x.after.stop) (hstart : x.before.start ≤ row)
    (hstop : row < x.before.stop) : proportion x row < x.after.stop - x.after.start := by
  have hsource : (0 : ℚ) < (x.before.stop - x.before.start : ℤ) := by
    exact_mod_cast (show (0 : ℤ) < x.before.stop - x.before.start by omega)
  have hlen : (0 : ℚ) < (x.after.stop - x.after.start : ℤ) := by
    exact_mod_cast (show (0 : ℤ) < x.after.stop - x.after.start by omega)
  have hoffset : ((row - x.before.start : ℤ) : ℚ) < (x.before.stop - x.before.start : ℤ) := by
    exact_mod_cast (show row - x.before.start < x.before.stop - x.before.start by omega)
  rw [proportion, Int.floor_lt]
  exact mul_lt_of_lt_one_left hlen ((div_lt_one hsource).mpr hoffset)

theorem proportion_of_empty (htarget : x.after.start = x.after.stop) : proportion x row = 0 := by
  rw [proportion, htarget, Int.sub_self, Int.cast_zero, mul_zero, Int.floor_zero]

/-- With regions of one length the offset stays. -/
theorem proportion_of_paired (hpaired : x.before.stop - x.before.start = x.after.stop - x.after.start)
    (htarget : x.after.start ≤ x.after.stop) (hstart : x.before.start ≤ row) (hstop : row < x.before.stop) :
    proportion x row = row - x.before.start := by
  have hlen : ((x.after.stop - x.after.start : ℤ) : ℚ) = (x.before.stop - x.before.start : ℤ) := by
    exact_mod_cast (show (x.after.stop : ℤ) - x.after.start = x.before.stop - x.before.start by omega)
  have hsource : ((x.before.stop - x.before.start : ℤ) : ℚ) ≠ 0 := by
    exact_mod_cast (show (x.before.stop : ℤ) - x.before.start ≠ 0 by omega)
  rw [proportion, hlen, div_mul_cancel₀ _ hsource, Int.floor_intCast]

theorem transferRow_before (row : ℤ) (x : Git.Alignment) :
    transferRow row x .before =
      if x.before.start = row then (x.after.start : ℤ)
      else if x.before.stop = row then (x.after.stop : ℤ)
      else if x.before.stop < row then row - x.before.stop + x.after.stop
      else if (x.before.stop : ℤ) - x.before.start = 0 then (x.after.start : ℤ)
      else if (x.after.stop : ℤ) - x.after.start = 0 then (x.after.start : ℤ)
      else min (x.after.start + proportion x row) (x.after.stop - 1) := rfl

/-- The special cases agree with the proportion. -/
theorem transferRow_inside (htarget : x.after.start ≤ x.after.stop) (hstart : x.before.start ≤ row)
    (hstop : row < x.before.stop) : transferRow row x .before = x.after.start + proportion x row := by
  rw [transferRow_before]
  by_cases hfirst : (x.before.start : ℤ) = row
  · rw [if_pos hfirst, ← hfirst, proportion_start, add_zero]
  · rw [if_neg hfirst, if_neg (by omega), if_neg (by omega), if_neg (by omega)]
    by_cases hempty : (x.after.stop : ℤ) - x.after.start = 0
    · rw [if_pos hempty, proportion_of_empty (by omega), add_zero]
    · have hlt := proportion_lt (x := x) (by omega) hstart hstop
      rw [if_neg hempty]
      exact min_eq_left (by omega)

/-- The rows of a region are sent into the region of the other side. -/
theorem transferRow_mem (htarget : x.after.start ≤ x.after.stop) (hstart : x.before.start ≤ row)
    (hstop : row < x.before.stop) :
    x.after.start ≤ transferRow row x .before ∧ transferRow row x .before ≤ x.after.stop := by
  have hzero : 0 ≤ proportion x row := by
    rw [← proportion_start]
    exact proportion_mono (by omega) htarget hstart
  rw [transferRow_inside htarget hstart hstop]
  refine ⟨by omega, ?_⟩
  rcases Nat.eq_or_lt_of_le htarget with hempty | hsome
  · rw [proportion_of_empty hempty]
    omega
  · have hlt := proportion_lt hsome hstart hstop
    omega

theorem transferRow_past (hstart : x.before.start ≤ x.before.stop) (hrow : x.before.stop < row) :
    transferRow row x .before = row - x.before.stop + x.after.stop := by
  rw [transferRow_before, if_neg (by omega), if_neg (by omega), if_pos hrow]

theorem transferRow_stop (hstart : x.before.start < x.before.stop) :
    transferRow x.before.stop x .before = x.after.stop := by
  rw [transferRow_before, if_neg (by omega), if_pos rfl]

theorem transferRow_empty (hstart : x.before.start = x.before.stop) :
    transferRow x.before.stop x .before = x.after.start := by
  rw [transferRow_before, if_pos (by omega)]

end Region

/-! ## Tilings -/

section Tiling

variable {n m b a : ℕ} {alignments : List Git.Alignment} {row row' : ℤ}

/-- A tiling begins before it ends. -/
theorem tiles_le (h : Tiles n m b a alignments) : b ≤ n ∧ a ≤ m := by
  induction alignments generalizing b a with
  | nil =>
    obtain ⟨rfl, rfl⟩ := h
    exact ⟨le_rfl, le_rfl⟩
  | cons x alignments ih =>
    obtain ⟨⟨hb, ha⟩, ⟨hbefore, hafter⟩, hrest⟩ := h
    obtain ⟨hn, hm⟩ := ih hrest
    omega

theorem tiles_append {xs ys : List Git.Alignment} :
    Tiles n m b a (xs ++ ys) ↔ ∃ b' a', Tiles b' a' b a xs ∧ Tiles n m b' a' ys := by
  induction xs generalizing b a with
  | nil =>
    refine ⟨fun h => ⟨b, a, ⟨rfl, rfl⟩, h⟩, ?_⟩
    rintro ⟨b', a', ⟨rfl, rfl⟩, h⟩
    exact h
  | cons x xs ih =>
    simp only [List.cons_append, Tiles, ih]
    constructor
    · rintro ⟨hstart, hle, b', a', hxs, hys⟩
      exact ⟨b', a', ⟨hstart, hle, hxs⟩, hys⟩
    · rintro ⟨b', a', ⟨hstart, hle, hxs⟩, hys⟩
      exact ⟨hstart, hle, b', a', hxs, hys⟩

/-- Where the regions of a tiling are. -/
theorem tiles_mem (h : Tiles n m b a alignments) {x : Git.Alignment} (hx : x ∈ alignments) :
    (b ≤ x.before.start ∧ x.before.start ≤ x.before.stop ∧ x.before.stop ≤ n) ∧
      a ≤ x.after.start ∧ x.after.start ≤ x.after.stop ∧ x.after.stop ≤ m := by
  induction alignments generalizing b a with
  | nil => cases hx
  | cons y alignments ih =>
    obtain ⟨⟨hb, ha⟩, ⟨hbefore, hafter⟩, hrest⟩ := h
    obtain ⟨hn, hm⟩ := tiles_le hrest
    rcases List.mem_cons.mp hx with rfl | hx
    · omega
    · have hin := ih hrest hx
      omega

/-- Of two regions one comes before the other, on both sides. -/
theorem tiles_order (h : Tiles n m b a alignments) {x y : Git.Alignment} (hx : x ∈ alignments) (hy : y ∈ alignments) :
    x = y ∨ (x.before.stop ≤ y.before.start ∧ x.after.stop ≤ y.after.start) ∨
      (y.before.stop ≤ x.before.start ∧ y.after.stop ≤ x.after.start) := by
  induction alignments generalizing b a with
  | nil => cases hx
  | cons z alignments ih =>
    obtain ⟨-, -, hrest⟩ := h
    rcases List.mem_cons.mp hx with rfl | hx' <;> rcases List.mem_cons.mp hy with rfl | hy'
    · exact .inl rfl
    · have hin := tiles_mem hrest hy'
      exact .inr (.inl ⟨hin.1.1, hin.2.1⟩)
    · have hin := tiles_mem hrest hx'
      exact .inr (.inr ⟨hin.1.1, hin.2.1⟩)
    · exact ih hrest hx' hy'

/-- Regions with one row in common are one. -/
theorem tiles_unique (h : Tiles n m b a alignments) {x y : Git.Alignment} (hx : x ∈ alignments) (hy : y ∈ alignments)
    (hxrow : x.before.start ≤ row ∧ row < x.before.stop) (hyrow : y.before.start ≤ row ∧ row < y.before.stop) : x = y := by
  rcases tiles_order h hx hy with heq | hlt | hgt
  · exact heq
  · omega
  · omega

theorem exists_find (h : Tiles n m b a alignments) (row : ℤ) (hb : b ≤ row) (hn : row < n) :
    ∃ x ∈ alignments, alignments.find? (fun x => row < (span x .before).stop) = some x ∧
      x.before.start ≤ row ∧ row < x.before.stop := by
  induction alignments generalizing b a with
  | nil =>
    obtain ⟨rfl, -⟩ := h
    omega
  | cons y alignments ih =>
    obtain ⟨⟨hstart, -⟩, -, hrest⟩ := h
    by_cases hrow : row < y.before.stop
    · refine ⟨y, List.mem_cons_self, List.find?_cons_of_pos ?_, by omega, hrow⟩
      exact decide_eq_true hrow
    · obtain ⟨x, hx, hfind, hrow'⟩ := ih hrest (by omega)
      refine ⟨x, List.mem_cons_of_mem y hx, ?_, hrow'⟩
      rw [List.find?_cons_of_neg (by exact fun h => hrow (of_decide_eq_true h))]
      exact hfind

/-- A row of a region is sent through this region. -/
theorem syncRow_of_mem (h : Tiles n m b a alignments) {x : Git.Alignment} (hx : x ∈ alignments)
    (hrow : x.before.start ≤ row ∧ row < x.before.stop) :
    syncRow alignments .before row = some (x.after.start + proportion x row) := by
  have hin := tiles_mem h hx
  obtain ⟨y, hy, hfind, hyrow⟩ := exists_find h row (by omega) (by omega)
  obtain rfl := tiles_unique h hx hy hrow hyrow
  rw [syncRow, findAlignment, hfind, Option.some_or, Option.map_some, transferRow_inside hin.2.2.1 hrow.1 hrow.2]

/-- From the end on, rows are sent through the last region. -/
theorem exists_last (h : Tiles n m b a alignments) (hne : alignments ≠ []) :
    ∃ x ∈ alignments, alignments.getLast? = some x ∧ x.before.stop = n ∧ x.after.stop = m ∧
      ∀ row : ℤ, n ≤ row → syncRow alignments .before row = some (transferRow row x .before) := by
  obtain ⟨xs, x, rfl⟩ : ∃ xs x, alignments = xs ++ [x] := (List.eq_nil_or_concat' alignments).resolve_left hne
  obtain ⟨b', a', -, -, -, hn, hm⟩ := tiles_append.mp h
  refine ⟨x, by simp, by simp, hn, hm, fun row hrow => ?_⟩
  have hnone : (xs ++ [x]).find? (fun x => row < (span x .before).stop) = none := by
    refine List.find?_eq_none.mpr fun y hy hlt => ?_
    have hin := tiles_mem h hy
    have hlt' : row < y.before.stop := of_decide_eq_true hlt
    omega
  rw [syncRow, findAlignment, hnone, Option.none_or, List.getLast?_concat, Option.map_some]

end Tiling

/-! ## The maps of both sides -/

/-- How the rows of a side are sent to those of the other one, by `f`. The files have `n` and `m` lines, and `back` goes
the other way. -/
structure Maps (alignments : List Git.Alignment) (side : Side) (n m : ℕ) (f back : ℤ → ℤ) : Prop where
  monotone : ∀ row row' : ℤ, 0 ≤ row → row ≤ row' → f row ≤ f row'
  range : ∀ row : ℤ, 0 ≤ row → row < n → 0 ≤ f row ∧ f row ≤ m
  partner : ∀ x ∈ alignments, x.changed = false → ∀ row : ℤ, (span x side).start ≤ row → row < (span x side).stop →
    f row = (span x side.other).start + (row - (span x side).start) ∧ back (f row) = row
  first : ∀ x ∈ alignments, (span x side).start < (span x side).stop →
    f (span x side).start = (span x side.other).start
  past : ∀ row : ℤ, n < row → f row = row - n + m
  /-- The first row past the end is sent past the end, too, unless it is where an empty last region starts. -/
  last : ∀ x ∈ alignments.getLast?, (span x side).start < (span x side).stop → f n = m

section Maps

variable {n m : ℕ} {alignments : List Git.Alignment} {f back : ℤ → ℤ}

/-- The last region and the rows from the end on. -/
theorem last_cases (hne : alignments ≠ []) (htiles : Tiles n m 0 0 alignments)
    (hf : ∀ row, syncRow alignments .before row = some (f row)) :
    ∃ x ∈ alignments, alignments.getLast? = some x ∧ x.before.stop = n ∧ x.after.stop = m ∧
      (∀ row : ℤ, n < row → f row = row - n + m) ∧ (x.before.start < x.before.stop → f n = m) ∧
      (x.before.start = x.before.stop → f n = x.after.start) := by
  obtain ⟨x, hx, hlast, rfl, rfl, hsync⟩ := exists_last htiles hne
  have hin := tiles_mem htiles hx
  have hvalue : ∀ row : ℤ, x.before.stop ≤ row → f row = transferRow row x .before :=
    fun row hrow => Option.some.inj ((hf row).symm.trans (hsync row hrow))
  refine ⟨x, hx, hlast, rfl, rfl, fun row hrow => ?_, fun hsome => ?_, fun hempty => ?_⟩
  · rw [hvalue row (by omega), transferRow_past (by omega) hrow]
  · rw [hvalue _ le_rfl, transferRow_stop hsome]
  · rw [hvalue _ le_rfl, transferRow_empty hempty]

theorem maps_before (hne : alignments ≠ []) (htiles : Tiles n m 0 0 alignments) (hpaired : Paired alignments)
    (hf : ∀ row, syncRow alignments .before row = some (f row))
    (hback : ∀ row, syncRow alignments .after row = some (back row)) : Maps alignments .before n m f back := by
  obtain ⟨last, hlast, hgetLast, hn, hm, hpast, hend, hempty⟩ := last_cases hne htiles hf
  have hvalue : ∀ x ∈ alignments, ∀ row : ℤ, x.before.start ≤ row ∧ row < x.before.stop →
      f row = x.after.start + proportion x row :=
    fun x hx row hrow => Option.some.inj ((hf row).symm.trans (syncRow_of_mem htiles hx hrow))
  have hbetween : ∀ x ∈ alignments, ∀ row : ℤ, x.before.start ≤ row ∧ row < x.before.stop →
      x.after.start ≤ f row ∧ f row ≤ x.after.stop := by
    intro x hx row hrow
    have hin := tiles_mem htiles hx
    have hmem := transferRow_mem hin.2.2.1 hrow.1 hrow.2
    rwa [transferRow_inside hin.2.2.1 hrow.1 hrow.2, ← hvalue x hx row hrow] at hmem
  refine ⟨fun row row' hrow hle => ?_, fun row hrow hlt => ?_, fun x hx hsame row hstart hstop => ?_,
    fun x hx hsome => ?_, hpast, fun x hx hsome => ?_⟩
  · by_cases hrow' : row' < n
    · obtain ⟨x, hx, -, hxrow⟩ := exists_find htiles row (by omega) (by omega)
      obtain ⟨y, hy, -, hyrow⟩ := exists_find htiles row' (by omega) hrow'
      have hx' := hbetween x hx row hxrow
      have hy' := hbetween y hy row' hyrow
      rcases tiles_order htiles hx hy with rfl | hlt | hgt
      · have hin := tiles_mem htiles hx
        rw [hvalue x hx row hxrow, hvalue x hx row' hyrow]
        exact Int.add_le_add_left (proportion_mono hin.1.2.1 hin.2.2.1 hle) _
      · omega
      · omega
    -- the second row is past the end, where the last region may be empty
    · have hin := tiles_mem htiles hlast
      have hvalue' : f row' = row' - n + m ∨ row' = n ∧ last.before.start = last.before.stop ∧ f row' = last.after.start := by
        rcases eq_or_ne row' n with rfl | hne'
        · rcases Nat.lt_or_eq_of_le hin.1.2.1 with hsome | hnone
          · have hvalue' := hend hsome
            omega
          · exact .inr ⟨rfl, hnone, hempty hnone⟩
        · exact .inl (hpast row' (by omega))
      by_cases hrown : row < n
      · obtain ⟨x, hx, -, hxrow⟩ := exists_find htiles row (by omega) hrown
        have hx' := hbetween x hx row hxrow
        have hinx := tiles_mem htiles hx
        rcases tiles_order htiles hx hlast with rfl | hlt | hgt
        · omega
        · omega
        · omega
      · rcases eq_or_ne row row' with rfl | hne'
        · exact le_rfl
        · have hrow'' := hpast row' (by omega)
          rcases eq_or_ne row n with rfl | hrow
          · rcases Nat.lt_or_eq_of_le hin.1.2.1 with hsome | hnone
            · have hvalue := hend hsome
              omega
            · have hvalue := hempty hnone
              omega
          · have hvalue := hpast row (by omega)
            omega
  · obtain ⟨x, hx, -, hxrow⟩ := exists_find htiles row (by omega) hlt
    have hin := tiles_mem htiles hx
    have hx' := hbetween x hx row hxrow
    omega
  · have hin := tiles_mem htiles hx
    have hsize := hpaired x hx hsame
    have hrow : f row = x.after.start + (row - x.before.start) := by
      rw [hvalue x hx row ⟨hstart, hstop⟩, proportion_of_paired (by omega) hin.2.2.1 hstart hstop]
    refine ⟨hrow, ?_⟩
    -- the other way the same region is found
    have hmem : flip x ∈ alignments.map flip := List.mem_map_of_mem hx
    simp only [span] at hstart hstop
    have hflip : (flip x).before.start ≤ f row ∧ f row < (flip x).before.stop := by
      simp only [flip]
      omega
    have hsync := syncRow_of_mem (Tiles.flip htiles) hmem hflip
    rw [syncRow_flip, Side.other, hback, Option.some.injEq,
      proportion_of_paired (x := flip x) (by simp only [flip]; omega) hin.1.2.1 hflip.1 hflip.2] at hsync
    rw [hsync, hrow]
    simp only [flip]
    omega
  · simp only [span] at hsome
    rw [span, hvalue x hx _ ⟨le_rfl, by omega⟩, proportion_start, add_zero]
    rfl
  · obtain rfl := Option.some.inj (hgetLast.symm.trans hx)
    exact hend hsome

end Maps

/-- The rows of each side are sent to the other one in order and within the file, partner to partner in unchanged regions,
and by a fixed offset past the end, where only the first row may be an exception. -/
theorem sync_consistent {n m : ℕ} {alignments : List Git.Alignment} (hne : alignments ≠ []) (htiles : Tiles n m 0 0 alignments)
    (hpaired : Paired alignments) :
    ∃ f : Side → ℤ → ℤ, (∀ side row, syncRow alignments side row = some (f side row)) ∧
      Maps alignments .before n m (f .before) (f .after) ∧ Maps alignments .after m n (f .after) (f .before) := by
  have hsome : ∀ side row, ∃ t, syncRow alignments side row = some t := by
    intro side row
    obtain ⟨x, hx⟩ : ∃ x, findAlignment row alignments side = some x := by
      rw [← Option.isSome_iff_exists, findAlignment, Option.isSome_or, Bool.or_eq_true]
      exact .inr (List.getLast?_isSome.mpr hne)
    exact ⟨_, by rw [syncRow, hx, Option.map_some]⟩
  choose f hf using hsome
  refine ⟨f, hf, maps_before hne htiles hpaired (hf .before) (hf .after), ?_⟩
  have hflip : Maps (alignments.map flip) .before m n (f .after) (f .before) := maps_before (by simpa using hne)
    (Tiles.flip htiles) hpaired.flip (fun row => by rw [syncRow_flip]; exact hf .after row)
    (fun row => by rw [syncRow_flip]; exact hf .before row)
  refine ⟨hflip.monotone, hflip.range, fun x hx hsame => ?_, fun x hx => ?_, hflip.past, fun x hx => ?_⟩
  · exact hflip.partner (flip x) (List.mem_map_of_mem hx) hsame
  · exact hflip.first (flip x) (List.mem_map_of_mem hx)
  · refine hflip.last (flip x) ?_
    rw [List.getLast?_map, Option.mem_def.mp hx]
    rfl

/-- Two lines are added to a file of three, as the alignments of their hunk. -/
theorem sync_consistent_insertion :
    ∃ alignments, Git.computeAlignmentsFromHunks [⟨1, 0, 1, 2⟩] (some ⟨[], .text [['a'], ['b'], ['c']]⟩)
        (some ⟨[], .text [['a'], ['x'], ['y'], ['b'], ['c']]⟩) = some alignments ∧
      ∃ f : Side → ℤ → ℤ, (∀ side row, syncRow alignments side row = some (f side row)) ∧
        Maps alignments .before 3 5 (f .before) (f .after) ∧ Maps alignments .after 5 3 (f .after) (f .before) := by
  refine ⟨[⟨⟨0, 1⟩, ⟨0, 1⟩, false⟩, ⟨⟨1, 1⟩, ⟨1, 3⟩, true⟩, ⟨⟨1, 3⟩, ⟨3, 5⟩, false⟩], by decide, ?_⟩
  exact sync_consistent (by decide) (by simp [Tiles]) (by simp [Paired])

/-- Two lines are added at the end of a file of one. The first row past the end is sent to where they start, and only
the rows behind it by one offset. -/
theorem sync_appended_row :
    ∃ alignments, Git.computeAlignmentsFromHunks [⟨1, 0, 1, 2⟩] (some ⟨[], .text [['a']]⟩)
        (some ⟨[], .text [['a'], ['x'], ['y']]⟩) = some alignments ∧
      (alignments ≠ [] ∧ Tiles 1 3 0 0 alignments ∧ Paired alignments) ∧
      (syncRow alignments .before 1 = some 1 ∧ syncRow alignments .before 2 = some 4) ∧
      ¬ ∃ offset : ℤ, ∀ row : ℤ, 1 ≤ row → syncRow alignments .before row = some (row + offset) := by
  refine ⟨[⟨⟨0, 1⟩, ⟨0, 1⟩, false⟩, ⟨⟨1, 1⟩, ⟨1, 3⟩, true⟩], by decide, ⟨by decide, by simp [Tiles], by simp [Paired]⟩,
    ⟨by decide, by decide⟩, ?_⟩
  rintro ⟨offset, hoffset⟩
  have hfirst : some (1 : ℤ) = some (1 + offset) := hoffset 1 (by decide)
  have hsecond : some (4 : ℤ) = some (2 + offset) := hoffset 2 (by decide)
  rw [Option.some_inj] at hfirst hsecond
  omega

end Builderbot.DiffViewer.ScrollSync
