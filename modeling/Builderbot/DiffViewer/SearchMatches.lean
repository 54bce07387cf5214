import Builderbot.DiffViewer.SearchState
import Builderbot.Lib.Occurrences
import Builderbot.Lib.Respelling

/-!
# The columns of the matches

`findInString` looks for the lower-cased query in the lower-cased line and uses the position that it finds as a
column of the line, with the length of the query. `toLowerCase` maps the characters, and a character may become
longer.

`findMatches_faithful_iff` says when the columns are right. While all matches are listed, they are right exactly when
no place of the lower-cased query is moved by the characters before it or in it.
-/

namespace Builderbot.DiffViewer

open Lib Utf16 Occurrences Respelling

/-- What `toLowerCase` does to each character, none of which vanishes. -/
structure CaseMapping where
  lower : JsString → JsString
  lower_ne_nil : ∀ c, c ≠ [] → lower c ≠ []

namespace CaseMapping

variable (m : CaseMapping)

def toLowerCase (s : JsString) : JsString := (chars s).flatMap m.lower

/-- A character of the line begins or ends at the column. -/
def IsColumn (line : JsString) (col : ℕ) : Prop := ∃ k ≤ (chars line).length, offset id (chars line) k = col

/-- The text from one column to another one equals the query up to case. -/
structure Occurs (line query : JsString) (startCol endCol : ℕ) : Prop where
  lt : startCol < endCol
  le_length : endCol ≤ line.length
  start : IsColumn line startCol
  stop : IsColumn line endCol
  equal : m.toLowerCase ((line.take endCol).drop startCol) = m.toLowerCase query

/-- What a list of matches has to be. -/
structure Faithful (lines : List JsString) (query : JsString) (scope : SearchScope) (changed : ℕ → Bool)
    (found : List SearchMatch) : Prop where
  right : ∀ r ∈ found, (scope = .changes → changed r.lineIndex = true) ∧
    ∃ line, lines[r.lineIndex]? = some line ∧ m.Occurs line query r.right.startCol r.right.endCol
  ordered : found.Pairwise fun r r' =>
    r.lineIndex < r'.lineIndex ∨ r.lineIndex = r'.lineIndex ∧ r.right.startCol < r'.right.startCol
  all : found.length < MAX_MATCHES → ∀ i line startCol endCol, lines[i]? = some line →
    (scope = .changes → changed i = true) → m.Occurs line query startCol endCol → ⟨i, ⟨startCol, endCol⟩⟩ ∈ found

/-- A place of the lower-cased query in a lower-cased line. -/
structure Place where
  lineIndex : ℕ
  line : JsString
  col : ℕ

/-- The places in the lines from one on that are not skipped. -/
def placesFrom (query : JsString) (skip : ℕ → Bool) : ℕ → List JsString → List Place
  | _, [] => []
  | i, line :: lines =>
    if skip i then placesFrom query skip (i + 1) lines
    else (occurrences (m.toLowerCase query) (m.toLowerCase line)).map (fun col => ⟨i, line, col⟩)
      ++ placesFrom query skip (i + 1) lines

/-- The places in the lines of the scope. -/
def places (lines : List JsString) (query : JsString) (scope : SearchScope) (changed : ℕ → Bool) : List Place :=
  if query = [] then [] else m.placesFrom query (fun i => scope = .changes && !changed i) 0 lines

/-- The place begins and ends between two characters of the line, and no character before it and not the whole of
those in it is of another length than in lower case; those in it are as long as the query. -/
def PlaceUnmoved (query : JsString) (x : Place) : Prop :=
  Unmoved id m.lower (chars x.line) (m.toLowerCase query) query.length x.col

/-- The columns of the place are those of characters that are the query in lower case. -/
def PlaceStands (query : JsString) (x : Place) : Prop :=
  StandsAt id m.lower (chars x.line) (m.toLowerCase query) query.length x.col

/-- If there are fewer than `MAX_MATCHES` places, no place has moved. Otherwise the first ones have only moved to
where the query stands as well. -/
def Kept (lines : List JsString) (query : JsString) (scope : SearchScope) (changed : ℕ → Bool) : Prop :=
  if (m.places lines query scope changed).length < MAX_MATCHES then
    ∀ x ∈ m.places lines query scope changed, m.PlaceUnmoved query x
  else ∀ x ∈ (m.places lines query scope changed).take MAX_MATCHES, m.PlaceStands query x

variable {m} {line query : JsString} {lines : List JsString} {skip : ℕ → Bool}

/-! ## One line -/

theorem lower_ne_nil_of_mem {c : JsString} (hc : c ∈ chars line) : m.lower c ≠ [] :=
  m.lower_ne_nil c (ne_nil_of_mem_chars hc)

theorem toLowerCase_ne_nil (h : query ≠ []) : m.toLowerCase query ≠ [] := by
  cases query with
  | nil => exact absurd rfl h
  | cons u s =>
    obtain ⟨c, cs, hcs⟩ := exists_chars_cons u s
    rw [toLowerCase, hcs, List.flatMap_cons]
    intro hnil
    exact m.lower_ne_nil (u :: c) (List.cons_ne_nil u c) (List.append_eq_nil_iff.mp hnil).1

/-- A line is cut between two characters. -/
theorem line_eq (line : JsString) (k : ℕ) :
    line = ((chars line).take k).flatten ++ ((chars line).drop k).flatten := by
  rw [← List.flatten_append, List.take_append_drop, flatten_chars]

/-- The text of some characters of a line. -/
theorem slice_eq {j k : ℕ} (hjk : j ≤ k) :
    (line.take (offset id (chars line) k)).drop (offset id (chars line) j) = (((chars line).take k).drop j).flatten := by
  have htake : line.take (offset id (chars line) k) = ((chars line).take k).flatten := by
    rw [offset, List.flatMap_id]
    exact (congrArg _ (line_eq line k)).trans List.take_left
  have hoffset : offset id (chars line) j = offset id ((chars line).take k) j := by
    rw [offset, offset, List.take_take, Nat.min_eq_left hjk]
  rw [htake, hoffset, ← List.flatMap_id, drop_offset, List.flatMap_id]

/-- The query occurs where some characters spell it in lower case. -/
theorem occurs_iff (hquery : query ≠ []) {startCol endCol : ℕ} : m.Occurs line query startCol endCol ↔
    ∃ j k, Spells m.lower (chars line) (m.toLowerCase query) j k ∧
      offset id (chars line) j = startCol ∧ offset id (chars line) k = endCol := by
  have hslice {j k : ℕ} (hjk : j ≤ k) : m.toLowerCase
      ((line.take (offset id (chars line) k)).drop (offset id (chars line) j)) =
        (((chars line).take k).drop j).flatMap m.lower := by
    rw [slice_eq hjk, toLowerCase, chars_flatten_of_infix]
    exact (List.drop_suffix j _).isInfix.trans (List.take_prefix k _).isInfix
  constructor
  · rintro ⟨hlt, -, ⟨j, hj, rfl⟩, ⟨k, hk, rfl⟩, hequal⟩
    have hjk := (offset_lt_iff (fun c hc => ne_nil_of_mem_chars hc) hj hk).mp hlt
    exact ⟨j, k, ⟨hjk.le, hk, (hslice hjk.le).symm.trans hequal⟩, rfl, rfl⟩
  · rintro ⟨j, k, hspells, rfl, rfl⟩
    have hne : j ≠ k := by
      rintro rfl
      have hnil := hspells.spelled
      rw [List.drop_eq_nil_of_le (List.length_take_le j _), List.flatMap_nil] at hnil
      exact toLowerCase_ne_nil hquery hnil.symm
    have hlt := offset_lt (fun c hc => ne_nil_of_mem_chars hc) (Nat.lt_of_le_of_ne hspells.le hne) hspells.le_length
    refine ⟨hlt, ?_, ⟨j, hspells.le.trans hspells.le_length, rfl⟩, ⟨k, hspells.le_length, rfl⟩, ?_⟩
    · have hlen := congrArg List.length (line_eq line k)
      rw [List.length_append] at hlen
      rw [offset, List.flatMap_id, hlen]
      exact Nat.le_add_right _ _
    · exact (hslice hspells.le).trans hspells.spelled

theorem placeStands_iff (hquery : query ≠ []) {x : Place} :
    m.PlaceStands query x ↔ m.Occurs x.line query x.col (x.col + query.length) := (occurs_iff hquery).symm

/-- An empty query occurs nowhere. -/
theorem not_occurs_nil {startCol endCol : ℕ} : ¬ m.Occurs line [] startCol endCol := by
  intro h
  refine toLowerCase_ne_nil ?_ h.equal
  rw [← List.length_pos_iff, List.length_drop, List.length_take]
  have hlt := h.lt
  have hle := h.le_length
  omega

/-! ## All lines -/

/-- The match that `findInString` makes of a place. -/
def Place.toMatch (query : JsString) (x : Place) : SearchMatch := ⟨x.lineIndex, ⟨x.col, x.col + query.length⟩⟩

theorem findFrom_eq (lowerQuery text : JsString) (queryLength pos : ℕ) :
    findFrom lowerQuery queryLength pos text =
      (occurrencesFrom lowerQuery pos text).map fun col => ⟨col, col + queryLength⟩ := by
  induction text generalizing pos with
  | nil => rfl
  | cons u text ih =>
    rw [findFrom, occurrencesFrom]
    split
    · rw [List.map_cons, ih]
    · exact ih (pos + 1)

theorem findInString_eq (hquery : query ≠ []) : findInString m.toLowerCase line query =
    (occurrences (m.toLowerCase query) (m.toLowerCase line)).map fun col => ⟨col, col + query.length⟩ := by
  rw [findInString]
  split
  case isTrue hempty =>
    rw [hempty.resolve_right hquery]
    rfl
  case isFalse => exact findFrom_eq _ _ _ _

/-- What is taken of a part is no less than what is taken of the whole. -/
theorem take_append_take {α : Type*} (n : ℕ) (a b : List α) : (a.take n ++ b).take n = (a ++ b).take n := by
  rw [List.take_append, List.take_append, List.take_take, Nat.min_self, List.length_take]
  congr 2
  omega

/-- The loop takes the places up to the limit. -/
theorem findMatchesFrom_eq (hquery : query ≠ []) (i : ℕ) {found : List SearchMatch} (hfound : found.length ≤ MAX_MATCHES) :
    findMatchesFrom m.toLowerCase query skip i lines found =
      (found ++ (m.placesFrom query skip i lines).map (Place.toMatch query)).take MAX_MATCHES := by
  induction lines generalizing i found with
  | nil => rw [findMatchesFrom, placesFrom, List.map_nil, List.append_nil, List.take_of_length_le hfound]
  | cons line lines ih =>
    rw [findMatchesFrom, placesFrom]
    split
    case isTrue hfull => rw [List.take_append_of_le_length hfull, List.take_of_length_le hfound]
    case isFalse hroom =>
      split
      case isTrue => exact ih (i + 1) hfound
      case isFalse =>
        have hline : (findInString m.toLowerCase line query).map (fun location => (⟨i, location⟩ : SearchMatch)) =
            ((occurrences (m.toLowerCase query) (m.toLowerCase line)).map fun col => (⟨i, line, col⟩ : Place)).map
              (Place.toMatch query) := by
          rw [findInString_eq hquery, List.map_map, List.map_map]
          rfl
        dsimp only
        rw [hline, ih, List.map_append, List.append_assoc, List.take_append, take_append_take, ← List.take_append]
        rw [List.length_append, List.length_take]
        omega

theorem findMatches_eq (m : CaseMapping) (lines : List JsString) (query : JsString) (scope : SearchScope) (changed : ℕ → Bool) :
    findMatches m.toLowerCase lines query scope changed =
      ((m.places lines query scope changed).take MAX_MATCHES).map (Place.toMatch query) := by
  rw [findMatches, places]
  split
  case isTrue => rfl
  case isFalse hquery => rw [findMatchesFrom_eq hquery 0 (Nat.zero_le _), List.nil_append, List.map_take]

/-- The places are the occurrences in the lines that are not skipped. -/
theorem mem_placesFrom {i : ℕ} {x : Place} : x ∈ m.placesFrom query skip i lines ↔
    (∃ k, x.lineIndex = i + k ∧ lines[k]? = some x.line) ∧ skip x.lineIndex = false ∧
      x.col ∈ occurrences (m.toLowerCase query) (m.toLowerCase x.line) := by
  induction lines generalizing i with
  | nil =>
    rw [placesFrom]
    simp
  | cons line lines ih =>
    -- the line is the first of the list, or one of the rest
    have hhere : (∃ k, x.lineIndex = i + k ∧ (line :: lines)[k]? = some x.line) ↔
        (x.lineIndex = i ∧ line = x.line) ∨ ∃ k, x.lineIndex = i + 1 + k ∧ lines[k]? = some x.line := by
      constructor
      · rintro ⟨k, hk, hline⟩
        cases k with
        | zero => exact .inl ⟨hk, Option.some.inj hline⟩
        | succ k => exact .inr ⟨k, by omega, hline⟩
      · rintro (⟨hi, hline⟩ | ⟨k, hk, hline⟩)
        · exact ⟨0, hi, congrArg some hline⟩
        · exact ⟨k + 1, by omega, hline⟩
    rw [hhere, or_and_right, ← ih, placesFrom]
    split
    case isTrue hskip =>
      refine ⟨.inr, fun hx => hx.resolve_left ?_⟩
      rintro ⟨⟨hi, -⟩, hnot, -⟩
      rw [hi, hskip] at hnot
      cases hnot
    case isFalse hskip =>
      rw [List.mem_append, List.mem_map]
      refine or_congr_left ⟨?_, ?_⟩
      · rintro ⟨col, hcol, rfl⟩
        exact ⟨⟨rfl, rfl⟩, Bool.eq_false_iff.mpr hskip, hcol⟩
      · rintro ⟨⟨rfl, rfl⟩, -, hcol⟩
        exact ⟨x.col, hcol, rfl⟩

theorem placesFrom_sorted (i : ℕ) : (m.placesFrom query skip i lines).Pairwise fun x y =>
    x.lineIndex < y.lineIndex ∨ x.lineIndex = y.lineIndex ∧ x.col < y.col := by
  induction lines generalizing i with
  | nil => exact .nil
  | cons line lines ih =>
    rw [placesFrom]
    split
    · exact ih (i + 1)
    · refine List.pairwise_append.mpr ⟨?_, ih (i + 1), fun x hx y hy => .inl ?_⟩
      · exact List.pairwise_map.mpr (occurrences_sorted.imp fun hlt => .inr ⟨rfl, hlt⟩)
      · obtain ⟨col, -, rfl⟩ := List.mem_map.mp hx
        obtain ⟨⟨k, hk, -⟩, -⟩ := mem_placesFrom.mp hy
        rw [hk]
        exact Nat.lt_of_lt_of_le (Nat.lt_succ_self i) (Nat.le_add_right _ k)

variable {scope : SearchScope} {changed : ℕ → Bool} {x : Place}

theorem mem_places (hquery : query ≠ []) : x ∈ m.places lines query scope changed ↔
    lines[x.lineIndex]? = some x.line ∧ (scope = .changes → changed x.lineIndex = true) ∧
      m.toLowerCase query <+: (m.toLowerCase x.line).drop x.col := by
  rw [places, if_neg hquery, mem_placesFrom, mem_occurrences (toLowerCase_ne_nil hquery)]
  refine and_congr ?_ (and_congr_left fun _ => ?_)
  · constructor
    · rintro ⟨k, hk, hline⟩
      rwa [hk, Nat.zero_add]
    · exact fun hline => ⟨x.lineIndex, (Nat.zero_add _).symm, hline⟩
  · cases scope with
    | all => simp
    | changes => simp

/-- The matches are listed in order, whether or not they are right. -/
theorem findMatches_ordered (m : CaseMapping) (lines : List JsString) (query : JsString) (scope : SearchScope) (changed : ℕ → Bool) :
    (findMatches m.toLowerCase lines query scope changed).Pairwise fun r r' =>
      r.lineIndex < r'.lineIndex ∨ r.lineIndex = r'.lineIndex ∧ r.right.startCol < r'.right.startCol := by
  rw [findMatches_eq, List.pairwise_map]
  refine List.Pairwise.sublist (List.take_sublist _ _) ?_
  rw [places]
  split
  · exact .nil
  · exact placesFrom_sorted 0

/-- The matches lie on the text of the query exactly when their places stand there. -/
theorem right_iff (hquery : query ≠ []) :
    (∀ r ∈ findMatches m.toLowerCase lines query scope changed, (scope = .changes → changed r.lineIndex = true) ∧
      ∃ line, lines[r.lineIndex]? = some line ∧ m.Occurs line query r.right.startCol r.right.endCol) ↔
    ∀ x ∈ (m.places lines query scope changed).take MAX_MATCHES, m.PlaceStands query x := by
  rw [findMatches_eq, List.forall_mem_map]
  refine forall₂_congr fun x hx => ?_
  obtain ⟨hline, hscope, -⟩ := (mem_places hquery).mp (List.mem_of_mem_take hx)
  rw [placeStands_iff hquery]
  constructor
  · rintro ⟨-, line, hline', hoccurs⟩
    obtain rfl := Option.some.inj (hline.symm.trans hline')
    exact hoccurs
  · exact fun hoccurs => ⟨hscope, x.line, hline, hoccurs⟩

/-- While all places are listed, they stand at their columns exactly when none has moved. -/
theorem stands_iff_unmoved (hquery : query ≠ []) :
    (∀ x ∈ m.places lines query scope changed, m.PlaceStands query x) ↔
      ∀ x ∈ m.places lines query scope changed, m.PlaceUnmoved query x := by
  constructor
  · intro h x hx
    obtain ⟨hline, hscope, hat⟩ := (mem_places hquery).mp hx
    refine (columns_kept_iff (fun c hc => lower_ne_nil_of_mem hc) (fun c hc => ne_nil_of_mem_chars hc)
      (toLowerCase_ne_nil hquery)).mp (fun col hcol => ?_) x.col hat
    exact h ⟨x.lineIndex, x.line, col⟩ ((mem_places hquery).mpr ⟨hline, hscope, hcol⟩)
  · intro h x hx
    exact (h x hx).standsAt ((mem_places hquery).mp hx).2.2

/-- Where no place has moved, every occurrence is at a place. -/
theorem all_of_unmoved (hquery : query ≠ []) (h : ∀ x ∈ m.places lines query scope changed, m.PlaceUnmoved query x)
    {i startCol endCol : ℕ} (hline : lines[i]? = some line) (hscope : scope = .changes → changed i = true)
    (hoccurs : m.Occurs line query startCol endCol) :
    ∃ x ∈ m.places lines query scope changed, x.toMatch query = ⟨i, ⟨startCol, endCol⟩⟩ := by
  obtain ⟨j, k, hspells, rfl, rfl⟩ := (occurs_iff hquery).mp hoccurs
  have hunmoved (col : ℕ) (hcol : m.toLowerCase query <+: (m.toLowerCase line).drop col) :
      Unmoved id m.lower (chars line) (m.toLowerCase query) query.length col :=
    h ⟨i, line, col⟩ ((mem_places hquery).mpr ⟨hline, hscope, hcol⟩)
  obtain ⟨hstart, hend⟩ := Unmoved.eq_of_spells (fun c hc => lower_ne_nil_of_mem hc) hunmoved hspells
  obtain ⟨hat, -⟩ := (spells_iff hspells.le hspells.le_length).mp hspells
  refine ⟨⟨i, line, offset m.lower (chars line) j⟩, (mem_places hquery).mpr ⟨hline, hscope, hat⟩, ?_⟩
  rw [Place.toMatch, hstart, hend]

/-- The matches are right, in order and complete up to the limit exactly when no place has moved, or at the limit
when the first ones have only moved to where the query stands as well. -/
theorem findMatches_faithful_iff (m : CaseMapping) (lines : List JsString) (query : JsString) (scope : SearchScope)
    (changed : ℕ → Bool) :
    m.Faithful lines query scope changed (findMatches m.toLowerCase lines query scope changed) ↔
      m.Kept lines query scope changed := by
  -- an empty query has no places and no occurrences
  by_cases hquery : query = []
  · subst hquery
    have hplaces : m.places lines [] scope changed = [] := if_pos rfl
    have hkept : m.Kept lines [] scope changed := by
      rw [Kept, hplaces, if_pos (show [].length < MAX_MATCHES from Nat.zero_lt_succ 999)]
      exact fun x hx => absurd hx List.not_mem_nil
    refine iff_of_true ⟨fun r hr => absurd hr List.not_mem_nil, .nil, ?_⟩ hkept
    exact fun _ i line startCol endCol _ _ hoccurs => absurd hoccurs not_occurs_nil
  have hlength : (findMatches m.toLowerCase lines query scope changed).length =
      min MAX_MATCHES (m.places lines query scope changed).length := by
    rw [findMatches_eq, List.length_map, List.length_take]
  rw [Kept]
  split
  case isTrue hfew =>
    have htake : (m.places lines query scope changed).take MAX_MATCHES = m.places lines query scope changed :=
      List.take_of_length_le hfew.le
    rw [← stands_iff_unmoved hquery]
    constructor
    · intro h
      have hstands := (right_iff hquery).mp h.right
      rwa [htake] at hstands
    · intro h
      refine ⟨(right_iff hquery).mpr (by rwa [htake]), findMatches_ordered m lines query scope changed, ?_⟩
      intro _ i line startCol endCol hline hscope hoccurs
      obtain ⟨x, hx, hmatch⟩ := all_of_unmoved hquery ((stands_iff_unmoved hquery).mp h) hline hscope hoccurs
      rw [findMatches_eq, htake, List.mem_map]
      exact ⟨x, hx, hmatch⟩
  -- from `MAX_MATCHES` on nothing is asked of the places that are left out
  case isFalse hmany =>
    rw [← right_iff hquery]
    refine ⟨Faithful.right, fun h => ⟨h, findMatches_ordered m lines query scope changed, fun hfew => ?_⟩⟩
    rw [hlength] at hfew
    omega

/-- `İ` becomes two units, and the other characters stay as they are. -/
def dotted : CaseMapping where
  lower c := if c = [0x130] then [0x69, 0x307] else c
  lower_ne_nil c hc := by
    split
    · exact List.cons_ne_nil _ _
    · exact hc

/-- In `İa`, the `a` is found behind the end of the line. -/
theorem findMatches_moved :
    ¬ dotted.Faithful [[0x130, 0x61]] [0x61] .all (fun _ => false)
      (findMatches dotted.toLowerCase [[0x130, 0x61]] [0x61] .all fun _ => false) := by
  intro h
  have hfound : findMatches dotted.toLowerCase [[0x130, 0x61]] [0x61] .all (fun _ => false) = [⟨0, ⟨2, 3⟩⟩] := by
    decide
  obtain ⟨-, line, hline, hoccurs⟩ := h.right ⟨0, ⟨2, 3⟩⟩ (hfound ▸ List.mem_singleton_self _)
  obtain rfl := Option.some.inj hline
  exact absurd hoccurs.le_length (by decide)

end CaseMapping

end Builderbot.DiffViewer
