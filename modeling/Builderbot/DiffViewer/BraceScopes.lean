import Builderbot.Lib.Brackets
import Builderbot.Lib.Utf16
import Builderbot.DiffViewer.InlineDiff

/-!
# The end of a scope in braces

`structuralHeaders.ts` of `packages/diff-viewer` finds the brace that opens the scope of a declaration, and the line behind
the brace that closes it. Both work on lines without comments and quoted text, which `sanitizeBraceLine` blanks out.

`findOpeningBrace` carries the state of the sanitizer over the lines of a header, and `getBraceMatchEndLine` starts anew in
the line of the brace. `getBraceMatchEndLine_endsAtMatch` says for which headers both read the text in the same way.
-/

namespace Builderbot.DiffViewer.BraceScopes

open Lib Brackets

def leftBrace : UInt16 := 0x7B

def rightBrace : UInt16 := 0x7D

def leftParen : UInt16 := 0x28

def rightParen : UInt16 := 0x29

def colon : UInt16 := 0x3A

def slash : UInt16 := 0x2F

def star : UInt16 := 0x2A

def backslash : UInt16 := 0x5C

def quotationMark : UInt16 := 0x22

def apostrophe : UInt16 := 0x27

def backtick : UInt16 := 0x60

def space : UInt16 := 0x20

/-! ## The source -/

structure BraceSanitizerState where
  inBlockComment : Bool
  quote : Option UInt16
deriving DecidableEq, Repr

def createBraceSanitizerState : BraceSanitizerState := ⟨false, none⟩

/-- The loop of `hasClosingQuote` on the text behind the quote. With `skip`, the loop has passed over the next character. -/
def hasClosingQuoteFrom (quote : UInt16) : JsString → (skip : Bool) → Bool
  | [], _ => false
  | _ :: rest, true => hasClosingQuoteFrom quote rest false
  | char :: rest, false =>
    if char = backslash then hasClosingQuoteFrom quote rest true
    else if char = quote then true
    else hasClosingQuoteFrom quote rest false

def hasClosingQuote (rest : JsString) (quote : UInt16) : Bool := hasClosingQuoteFrom quote rest false

def startsQuote (rest : JsString) (quote : UInt16) : Bool := quote = backtick || hasClosingQuote rest quote

/-- Put a character out. -/
def put (char : UInt16) (result : JsString × BraceSanitizerState) : JsString × BraceSanitizerState :=
  (char :: result.1, result.2)

/-- The loop of `sanitizeBraceLine` on the rest of a line. Where the loop passes over two characters, the blank for the second
one is put out with `skip`. -/
def sanitizeFrom : JsString → (skip : Bool) → BraceSanitizerState → JsString × BraceSanitizerState
  | [], _, state => ([], state)
  | _ :: rest, true, state => put space (sanitizeFrom rest false state)
  | char :: rest, false, state =>
    if state.inBlockComment then
      if char = star ∧ rest.head? = some slash then
        put space (sanitizeFrom rest true { state with inBlockComment := false })
      else put space (sanitizeFrom rest false state)
    else if h : state.quote.isSome then
      if char = backslash then put space (sanitizeFrom rest true state)
      else if char = state.quote.get h then put space (sanitizeFrom rest false { state with quote := none })
      else put space (sanitizeFrom rest false state)
    else if char = slash ∧ rest.head? = some star then
      put space (sanitizeFrom rest true { state with inBlockComment := true })
    else if char = slash ∧ rest.head? = some slash then (List.replicate (rest.length + 1) space, state)
    else if (char = quotationMark ∨ char = apostrophe ∨ char = backtick) ∧ startsQuote rest char then
      put space (sanitizeFrom rest false { state with quote := some char })
    else put char (sanitizeFrom rest false state)

def sanitizeBraceLine (line : JsString) (state : BraceSanitizerState) : JsString × BraceSanitizerState :=
  sanitizeFrom line false state

structure BraceLocation where
  lineIndex : ℕ
  columnIndex : ℕ
deriving DecidableEq, Repr

/-- The inner loop of `getBraceMatchEndLine`: the balance behind the line, unless the function has returned. -/
def matchColumns : JsString → ℤ → Option ℤ
  | [], balance => some balance
  | char :: rest, balance =>
    if char = leftBrace then matchColumns rest (balance + 1)
    else if char = rightBrace then
      if balance - 1 = 0 then none else matchColumns rest (balance - 1)
    else matchColumns rest balance

/-- The outer loop. -/
def matchLines : List JsString → (lineIndex startColumn : ℕ) → BraceSanitizerState → ℤ → Option ℕ
  | [], _, _, _, _ => none
  | line :: lines, lineIndex, startColumn, state, balance =>
    let (sanitizedLine, state) := sanitizeBraceLine line state
    match matchColumns (sanitizedLine.drop startColumn) balance with
    | none => some (lineIndex + 1)
    | some balance => matchLines lines (lineIndex + 1) 0 state balance

def getBraceMatchEndLine (lines : List JsString) (brace : BraceLocation) : ℕ :=
  (matchLines (lines.drop brace.lineIndex) brace.lineIndex brace.columnIndex createBraceSanitizerState 0).getD lines.length

/-- What `findOpeningBrace` keeps over the columns of a line. -/
structure HeaderState where
  openingBrace : Option (BraceLocation × ℕ) := none
  parenBalance : ℤ := 0
  typeBraceBalance : ℤ := 0
  awaitingTypeLiteralBrace : Bool := false
  foundOnLine : Bool := false
deriving DecidableEq, Repr

/-- A candidate takes the place of the brace before it if its scope ends later. -/
def consider (candidate : BraceLocation × ℕ) : Option (BraceLocation × ℕ) → Option (BraceLocation × ℕ)
  | none => some candidate
  | some brace => some (if candidate.2 > brace.2 then candidate else brace)

/-- The part of the inner loop behind the test of `awaitingTypeLiteralBrace`. -/
def scanBrace (lines : List JsString) (location : BraceLocation) (char : UInt16) (st : HeaderState) : HeaderState :=
  if char ≠ leftBrace then st
  else
    { st with
      awaitingTypeLiteralBrace := false
      foundOnLine := true
      openingBrace := consider (location, getBraceMatchEndLine lines location) st.openingBrace }

/-- The body of the inner loop of `findOpeningBrace`. -/
def scanColumn (lines : List JsString) (location : BraceLocation) (char : UInt16) (st : HeaderState) : HeaderState :=
  if st.parenBalance > 0 then
    if char = leftParen then { st with parenBalance := st.parenBalance + 1 }
    else if char = rightParen then { st with parenBalance := st.parenBalance - 1 }
    else st
  else if st.typeBraceBalance > 0 then
    if char = leftBrace then { st with typeBraceBalance := st.typeBraceBalance + 1 }
    else if char = rightBrace then { st with typeBraceBalance := st.typeBraceBalance - 1 }
    else st
  else if char = leftParen then { st with parenBalance := st.parenBalance + 1 }
  else if char = colon then { st with awaitingTypeLiteralBrace := true }
  else if st.awaitingTypeLiteralBrace then
    if isSpace char.toNat then st
    else if char = leftBrace then { st with awaitingTypeLiteralBrace := false, typeBraceBalance := 1 }
    else scanBrace lines location char { st with awaitingTypeLiteralBrace := false }
  else scanBrace lines location char st

def scanLine (lines : List JsString) (lineIndex : ℕ) : JsString → (columnIndex : ℕ) → HeaderState → HeaderState
  | [], _, st => st
  | char :: rest, columnIndex, st =>
    scanLine lines lineIndex rest (columnIndex + 1) (scanColumn lines ⟨lineIndex, columnIndex⟩ char st)

/-- The outer loop of `findOpeningBrace`. -/
def scanHeader (lines : List JsString) : List JsString → (lineIndex : ℕ) → BraceSanitizerState → HeaderState → HeaderState
  | [], _, _, st => st
  | line :: header, lineIndex, state, st =>
    let (sanitizedLine, state) := sanitizeBraceLine line state
    let st := scanLine lines lineIndex sanitizedLine 0 { st with foundOnLine := false }
    if st.foundOnLine then st else scanHeader lines header (lineIndex + 1) state st

/-- `stopLineIndex` is the number of lines at most. -/
def findOpeningBrace (lines : List JsString) (startLineIndex stopLineIndex : ℕ) : Option BraceLocation :=
  (scanHeader lines ((lines.take stopLineIndex).drop startLineIndex) startLineIndex createBraceSanitizerState {}).openingBrace.map
    (·.1)

/-! ## The text with one state -/

/-- The lines, sanitised with one state that is carried over them. -/
def sanitizeLines : List JsString → BraceSanitizerState → List JsString
  | [], _ => []
  | line :: lines, state => (sanitizeBraceLine line state).1 :: sanitizeLines lines (sanitizeBraceLine line state).2

/-- The state behind some lines. -/
def carriedState (lines : List JsString) (state : BraceSanitizerState) : BraceSanitizerState :=
  lines.foldl (fun state line => (sanitizeBraceLine line state).2) state

/-- The characters of some lines, each with the index of its line. -/
def numbered : ℕ → List JsString → List (ℕ × UInt16)
  | _, [] => []
  | lineIndex, line :: lines => line.map (lineIndex, ·) ++ numbered (lineIndex + 1) lines

/-- The text behind a brace, in the lines from `start` on. -/
def textBehind (lines : List JsString) (start : ℕ) (brace : BraceLocation) : List (ℕ × UInt16) :=
  numbered brace.lineIndex (((sanitizeLines (lines.drop start) createBraceSanitizerState).drop
    (brace.lineIndex - start)).modifyHead (·.drop (brace.columnIndex + 1)))

/-- A step up or down at a brace. -/
def braceStep (x : ℕ × UInt16) : Option DyckStep :=
  if x.2 = leftBrace then some .U else if x.2 = rightBrace then some .D else none

/-- Right behind the line of the brace that closes this one, and at the end if there is none. -/
def EndsAtMatch (lines : List JsString) (start : ℕ) (brace : BraceLocation) (endLine : ℕ) : Prop :=
  (∃ inner lineIndex rest, textBehind lines start brace = inner ++ (lineIndex, rightBrace) :: rest ∧
      Balanced braceStep inner ∧ endLine = lineIndex + 1) ∨
    (∀ inner lineIndex rest, textBehind lines start brace = inner ++ (lineIndex, rightBrace) :: rest →
      ¬ Balanced braceStep inner) ∧ endLine = lines.length

/-- The character of a sanitised line at the column is an opening brace. -/
def Visible (lines : List JsString) (start : ℕ) (brace : BraceLocation) : Prop :=
  start ≤ brace.lineIndex ∧ ((sanitizeLines (lines.drop start) createBraceSanitizerState)[brace.lineIndex - start]?.bind
    fun view => view[brace.columnIndex]?) = some leftBrace

instance (lines : List JsString) (start : ℕ) (brace : BraceLocation) : Decidable (Visible lines start brace) :=
  inferInstanceAs (Decidable (_ ∧ _))

/-! ## The sanitizer -/

theorem length_sanitizeFrom (line : JsString) (skip : Bool) (state : BraceSanitizerState) :
    (sanitizeFrom line skip state).1.length = line.length := by
  induction line generalizing skip state with
  | nil => rfl
  | cons char rest ih =>
    cases skip with
    | true => exact congrArg (· + 1) (ih false state)
    | false =>
      rw [sanitizeFrom]
      split_ifs <;> simp only [put, List.length_cons, List.length_replicate, ih]

theorem length_sanitizeBraceLine (line : JsString) (state : BraceSanitizerState) :
    (sanitizeBraceLine line state).1.length = line.length := length_sanitizeFrom line false state

/-- What is put out from the column on is what the rest of the line is sanitised to. -/
def StartsAt (line : JsString) (result : JsString × BraceSanitizerState) (column : ℕ) : Prop :=
  (result.1.drop column, result.2) = sanitizeBraceLine (line.drop column) createBraceSanitizerState

variable {char : UInt16}

/-- Behind a blank. -/
theorem startsAt_put {c : UInt16} {rest : JsString} {result : JsString × BraceSanitizerState} (hc : c ≠ space)
    (ih : ∀ column, result.1[column]? = some c → StartsAt rest result column) (column : ℕ)
    (h : (put space result).1[column]? = some c) : StartsAt (char :: rest) (put space result) column := by
  cases column with
  | zero => exact absurd (Option.some.inj h).symm hc
  | succ column => exact ih column h

/-- A character that is not blanked out is met outside of comments and quoted text. -/
theorem startsAt_of_visible {c : UInt16} (hc : c ≠ space) (line : JsString) (skip : Bool) (state : BraceSanitizerState)
    (column : ℕ) (h : (sanitizeFrom line skip state).1[column]? = some c) :
    StartsAt line (sanitizeFrom line skip state) column := by
  induction line generalizing skip state column with
  | nil => cases h
  | cons char rest ih =>
    cases skip with
    | true => exact startsAt_put hc (ih false state) column h
    | false =>
      rw [sanitizeFrom] at h ⊢
      split_ifs at h ⊢ with hcomment hend hquote hescape hclosing hopens hline hstarts
      · exact startsAt_put hc (ih true _) column h
      · exact startsAt_put hc (ih false _) column h
      · exact startsAt_put hc (ih true _) column h
      · exact startsAt_put hc (ih false _) column h
      · exact startsAt_put hc (ih false _) column h
      · exact startsAt_put hc (ih true _) column h
      · exact absurd (List.eq_of_mem_replicate (List.mem_of_getElem? h)) hc
      · exact startsAt_put hc (ih false _) column h
      · cases column with
        | zero =>
          -- Neither in a comment nor in quoted text.
          have hstate : state = createBraceSanitizerState := by
            obtain ⟨inBlockComment, quote⟩ := state
            rw [Bool.not_eq_true] at hcomment
            rw [Option.not_isSome_iff_eq_none] at hquote
            obtain rfl : inBlockComment = false := hcomment
            obtain rfl : quote = none := hquote
            rfl
          subst hstate
          rw [StartsAt, List.drop_zero, List.drop_zero, sanitizeBraceLine, sanitizeFrom, if_neg hcomment, dif_neg hquote,
            if_neg hopens, if_neg hline, if_neg hstarts]
        | succ column => exact ih false state column h

/-! ## The opening brace -/

theorem consider_cases {candidate brace : BraceLocation × ℕ} {before : Option (BraceLocation × ℕ)}
    (h : consider candidate before = some brace) : before = some brace ∨ brace = candidate := by
  cases before with
  | none => exact .inr (Option.some.inj h).symm
  | some earlier =>
    rw [consider] at h
    split_ifs at h
    · exact .inr (Option.some.inj h).symm
    · exact .inl h

section Scan

variable {lines : List JsString} {brace : BraceLocation × ℕ}

theorem scanBrace_cases {location : BraceLocation} {st : HeaderState}
    (h : (scanBrace lines location char st).openingBrace = some brace) :
    st.openingBrace = some brace ∨ brace.1 = location ∧ char = leftBrace := by
  rw [scanBrace] at h
  split_ifs at h with hchar
  · exact .inl h
  · refine (consider_cases h).imp_right ?_
    rintro rfl
    exact ⟨rfl, not_not.mp hchar⟩

/-- A brace that is new is the character at the column. -/
theorem scanColumn_cases {location : BraceLocation} {st : HeaderState}
    (h : (scanColumn lines location char st).openingBrace = some brace) :
    st.openingBrace = some brace ∨ brace.1 = location ∧ char = leftBrace := by
  rw [scanColumn] at h
  -- Every branch leaves the brace as it is or ends in `scanBrace`.
  split_ifs at h <;> first | exact .inl h | exact (scanBrace_cases h).imp_left id

theorem scanLine_cases {lineIndex : ℕ} (view : JsString) (column : ℕ) (st : HeaderState)
    (h : (scanLine lines lineIndex view column st).openingBrace = some brace) :
    st.openingBrace = some brace ∨ brace.1.lineIndex = lineIndex ∧ column ≤ brace.1.columnIndex ∧
      view[brace.1.columnIndex - column]? = some leftBrace := by
  induction view generalizing column st with
  | nil => exact .inl h
  | cons char rest ih =>
    rcases ih (column + 1) _ h with hst | ⟨hline, hcolumn, hchar⟩
    · refine (scanColumn_cases hst).imp_right ?_
      rintro ⟨hlocation, rfl⟩
      rw [hlocation]
      refine ⟨rfl, le_rfl, ?_⟩
      rw [Nat.sub_self]
      rfl
    · refine .inr ⟨hline, by omega, ?_⟩
      rwa [show brace.1.columnIndex - column = brace.1.columnIndex - (column + 1) + 1 by omega, List.getElem?_cons_succ]

theorem scanHeader_cases (header : List JsString) (lineIndex : ℕ) (state : BraceSanitizerState) (st : HeaderState)
    (h : (scanHeader lines header lineIndex state st).openingBrace = some brace) :
    st.openingBrace = some brace ∨ lineIndex ≤ brace.1.lineIndex ∧
      ((sanitizeLines header state)[brace.1.lineIndex - lineIndex]?.bind fun view => view[brace.1.columnIndex]?) =
        some leftBrace := by
  induction header generalizing lineIndex state st with
  | nil => exact .inl h
  | cons line header ih =>
    have hfirst (hst : (scanLine lines lineIndex (sanitizeBraceLine line state).1 0
        { st with foundOnLine := false }).openingBrace = some brace) :
        st.openingBrace = some brace ∨ lineIndex ≤ brace.1.lineIndex ∧
          ((sanitizeLines (line :: header) state)[brace.1.lineIndex - lineIndex]?.bind
            fun view => view[brace.1.columnIndex]?) = some leftBrace := by
      refine (scanLine_cases _ 0 _ hst).imp_right ?_
      rintro ⟨hline, -, hchar⟩
      rw [hline, Nat.sub_self]
      exact ⟨le_rfl, hchar⟩
    rw [scanHeader] at h
    dsimp only at h
    split_ifs at h
    · exact hfirst h
    · rcases ih (lineIndex + 1) _ _ h with hst | ⟨hline, hchar⟩
      · exact hfirst hst
      · refine .inr ⟨by omega, ?_⟩
        rwa [show brace.1.lineIndex - lineIndex = brace.1.lineIndex - (lineIndex + 1) + 1 by omega, sanitizeLines,
          List.getElem?_cons_succ]

end Scan

theorem sanitizeLines_take (lines : List JsString) (state : BraceSanitizerState) (n : ℕ) :
    sanitizeLines (lines.take n) state = (sanitizeLines lines state).take n := by
  induction lines generalizing state n with
  | nil => rw [List.take_nil, sanitizeLines, List.take_nil]
  | cons line lines ih =>
    cases n with
    | zero => rfl
    | succ n => exact congrArg (_ :: ·) (ih _ n)

variable {lines : List JsString} {brace : BraceLocation} {start : ℕ}

/-- The column that is stored is that of a visible brace. -/
theorem visible_of_findOpeningBrace {stop : ℕ}
    (h : findOpeningBrace lines start stop = some brace) : Visible lines start brace := by
  obtain ⟨⟨location, endLine⟩, hbrace, rfl⟩ := Option.map_eq_some_iff.mp h
  rcases scanHeader_cases _ _ _ _ hbrace with hnone | ⟨hline, hchar⟩
  · cases hnone
  · refine ⟨hline, ?_⟩
    rw [List.drop_take, sanitizeLines_take, List.getElem?_take] at hchar
    split_ifs at hchar
    · exact hchar
    · cases hchar

/-! ## The closing brace -/

theorem closing_matchColumns (lineIndex : ℕ) (text : List (ℕ × UInt16)) (view : JsString) (balance : ℤ) :
    closing braceStep balance (view.map (lineIndex, ·) ++ text) =
      match matchColumns view balance with
      | none => some (lineIndex, rightBrace)
      | some balance => closing braceStep balance text := by
  induction view generalizing balance with
  | nil => rfl
  | cons char rest ih =>
    rw [List.map_cons, List.cons_append, closing, matchColumns, braceStep]
    by_cases hleft : char = leftBrace
    · rw [if_pos hleft, if_pos hleft]
      exact ih (balance + 1)
    · rw [if_neg hleft, if_neg hleft]
      by_cases hright : char = rightBrace
      · rw [if_pos hright, if_pos hright]
        by_cases hlast : balance - 1 = 0
        · rw [if_pos hlast]
          dsimp only
          rw [if_pos hlast, hright]
        · rw [if_neg hlast]
          dsimp only
          rw [if_neg hlast]
          exact ih (balance - 1)
      · rw [if_neg hright, if_neg hright]
        exact ih balance

/-- The loops count the braces of the text. -/
theorem matchLines_eq (lines : List JsString) (lineIndex startColumn : ℕ) (state : BraceSanitizerState) (balance : ℤ) :
    matchLines lines lineIndex startColumn state balance =
      (closing braceStep balance (numbered lineIndex ((sanitizeLines lines state).modifyHead (·.drop startColumn)))).map
        (·.1 + 1) := by
  induction lines generalizing lineIndex startColumn state balance with
  | nil => rfl
  | cons line lines ih =>
    rw [matchLines, sanitizeLines, List.modifyHead_cons, numbered, closing_matchColumns]
    dsimp only
    cases matchColumns ((sanitizeBraceLine line state).1.drop startColumn) balance with
    | none => rfl
    | some balance =>
      dsimp only
      rw [ih (lineIndex + 1) 0 _ balance]
      have hid : (fun view : JsString => view.drop 0) = id := funext fun view => List.drop_zero
      rw [hid, List.modifyHead_id]
      rfl

theorem drop_sanitizeLines (lines : List JsString) (state : BraceSanitizerState) (n : ℕ) :
    (sanitizeLines lines state).drop n = sanitizeLines (lines.drop n) (carriedState (lines.take n) state) := by
  induction lines generalizing state n with
  | nil => rw [List.drop_nil, sanitizeLines, List.drop_nil, sanitizeLines]
  | cons line lines ih =>
    cases n with
    | zero => rfl
    | succ n => exact ih _ n

theorem braceStep_eq_down {c : ℕ × UInt16} (h : braceStep c = some .D) : c.2 = rightBrace := by
  rw [braceStep] at h
  split_ifs at h with hleft hright
  · cases h
  · exact hright

/-- The line of the closing brace is found by counting. -/
theorem endsAtMatch_iff {endLine : ℕ} : EndsAtMatch lines start brace endLine ↔
      endLine = ((closing braceStep 1 (textBehind lines start brace)).map (·.1 + 1)).getD lines.length := by
  constructor
  · rintro (⟨inner, lineIndex, rest, htext, hinner, rfl⟩ | ⟨hnone, rfl⟩)
    · rw [(closing_eq_some_iff braceStep).mpr ⟨inner, rest, htext, rfl, hinner⟩]
      rfl
    · have hclosing : closing braceStep 1 (textBehind lines start brace) = none := by
        refine (closing_eq_none_iff braceStep).mpr fun inner c rest htext hc => ?_
        obtain ⟨lineIndex, char⟩ := c
        obtain rfl : char = rightBrace := braceStep_eq_down hc
        exact hnone inner lineIndex rest htext
      rw [hclosing]
      rfl
  · intro h
    cases hclosing : closing braceStep 1 (textBehind lines start brace) with
    | some c =>
      obtain ⟨inner, rest, htext, hc, hinner⟩ := (closing_eq_some_iff braceStep).mp hclosing
      obtain ⟨lineIndex, char⟩ := c
      obtain rfl : char = rightBrace := braceStep_eq_down hc
      rw [hclosing] at h
      exact .inl ⟨inner, lineIndex, rest, htext, hinner, h⟩
    | none =>
      rw [hclosing] at h
      refine .inr ⟨fun inner lineIndex rest htext => ?_, h⟩
      exact (closing_eq_none_iff braceStep).mp hclosing inner (lineIndex, rightBrace) rest htext rfl

/-- The text that `getBraceMatchEndLine` looks through. -/
def matchedText (lines : List JsString) (brace : BraceLocation) : List (ℕ × UInt16) :=
  numbered brace.lineIndex ((sanitizeLines (lines.drop brace.lineIndex) createBraceSanitizerState).modifyHead
    (·.drop brace.columnIndex))

/-- The brace is visible also if the sanitizer starts in its line. -/
def VisibleAnew (lines : List JsString) (brace : BraceLocation) : Prop := Visible lines brace.lineIndex brace

instance (lines : List JsString) (brace : BraceLocation) : Decidable (VisibleAnew lines brace) :=
  inferInstanceAs (Decidable (Visible _ _ _))

theorem getBraceMatchEndLine_eq (lines : List JsString) (brace : BraceLocation) : getBraceMatchEndLine lines brace =
    ((closing braceStep 0 (matchedText lines brace)).map (·.1 + 1)).getD lines.length := by
  rw [getBraceMatchEndLine, matchLines_eq, matchedText]

theorem drop_of_getElem? {α : Type*} {l : List α} {i : ℕ} {a : α} (h : l[i]? = some a) : l.drop i = a :: l.drop (i + 1) := by
  obtain ⟨hi, rfl⟩ := List.getElem?_eq_some_iff.mp h
  exact List.drop_eq_getElem_cons hi

/-- Two runs of the sanitizer on a line agree from a character on that is visible in both. -/
theorem sanitizeBraceLine_agree {line : JsString} {state state' : BraceSanitizerState} {c : UInt16} {column : ℕ}
    (hc : c ≠ space) (h : (sanitizeBraceLine line state).1[column]? = some c)
    (h' : (sanitizeBraceLine line state').1[column]? = some c) :
    (sanitizeBraceLine line state).1.drop column = (sanitizeBraceLine line state').1.drop column ∧
      (sanitizeBraceLine line state).2 = (sanitizeBraceLine line state').2 := by
  have hstarts := startsAt_of_visible hc line false state column h
  have hstarts' := startsAt_of_visible hc line false state' column h'
  exact Prod.mk.inj (hstarts.trans hstarts'.symm)

/-- Where the brace is visible, the text from it on is read in the same way. -/
theorem matchedText_eq_iff (h : Visible lines start brace) :
    matchedText lines brace = (brace.lineIndex, leftBrace) :: textBehind lines start brace ↔ VisibleAnew lines brace := by
  obtain ⟨hstart, hbrace⟩ := h
  have hcarried := drop_sanitizeLines (lines.drop start) createBraceSanitizerState (brace.lineIndex - start)
  rw [List.drop_drop, Nat.add_sub_cancel' hstart] at hcarried
  rw [← List.head?_drop, hcarried] at hbrace
  rw [matchedText, textBehind, hcarried, VisibleAnew, Visible, and_iff_right le_rfl, Nat.sub_self, ← List.head?_eq_getElem?]
  cases hlines : lines.drop brace.lineIndex with
  | nil =>
    rw [hlines] at hbrace
    cases hbrace
  | cons line rest =>
    rw [hlines, sanitizeLines, List.head?_cons, Option.bind_some] at hbrace
    simp only [sanitizeLines, List.modifyHead_cons, numbered, List.head?_cons, Option.bind_some]
    have hcolumn : brace.columnIndex < (sanitizeBraceLine line createBraceSanitizerState).1.length := by
      obtain ⟨hlt, -⟩ := List.getElem?_eq_some_iff.mp hbrace
      rwa [length_sanitizeBraceLine] at hlt ⊢
    constructor
    · intro htext
      rw [List.drop_eq_getElem_cons hcolumn, List.map_cons, List.cons_append] at htext
      rw [List.getElem?_eq_getElem hcolumn]
      exact congrArg some (Prod.mk.inj (List.cons.inj htext).1).2
    · intro hanew
      obtain ⟨hview, hstate⟩ := sanitizeBraceLine_agree (by decide) hanew hbrace
      rw [hview, hstate, drop_of_getElem? hbrace]
      rfl

theorem getBraceMatchEndLine_of_visible (h : Visible lines start brace) (hanew : VisibleAnew lines brace) :
    EndsAtMatch lines start brace (getBraceMatchEndLine lines brace) := by
  refine endsAtMatch_iff.mpr ?_
  rw [getBraceMatchEndLine_eq, (matchedText_eq_iff h).mpr hanew]
  rfl

/-- The scope ends behind the matching brace if the opening one is visible to a sanitizer that starts in its line. The text
behind the brace is read as it should if and only if this is so. -/
theorem getBraceMatchEndLine_endsAtMatch (lines : List JsString) (start stop : ℕ) (brace : BraceLocation)
    (h : findOpeningBrace lines start stop = some brace) :
    (∀ line state, (sanitizeBraceLine line state).1.length = line.length) ∧ Visible lines start brace ∧
      (matchedText lines brace = (brace.lineIndex, leftBrace) :: textBehind lines start brace ↔ VisibleAnew lines brace) ∧
      (VisibleAnew lines brace → EndsAtMatch lines start brace (getBraceMatchEndLine lines brace)) := by
  have hvisible := visible_of_findOpeningBrace h
  exact ⟨length_sanitizeBraceLine, hvisible, matchedText_eq_iff hvisible, getBraceMatchEndLine_of_visible hvisible⟩

/-- A comment in the header ends in the line of the brace. -/
def commentedLines : List JsString :=
  [Utf16.encode "function f(a, /* see".toList, Utf16.encode " b */ c) \x7b".toList, Utf16.encode "\x7d".toList]

theorem commentedLines_endsAtMatch : VisibleAnew commentedLines ⟨1, 9⟩ ∧
    EndsAtMatch commentedLines 0 ⟨1, 9⟩ (getBraceMatchEndLine commentedLines ⟨1, 9⟩) :=
  ⟨by decide, (getBraceMatchEndLine_endsAtMatch commentedLines 0 3 ⟨1, 9⟩ (by decide)).2.2.2 (by decide)⟩

/-- The same with an address in the comment. -/
def addressLines : List JsString :=
  [Utf16.encode "function f(a /* see".toList, Utf16.encode " http://x */) \x7b".toList, Utf16.encode "\x7d".toList,
    Utf16.encode "f();".toList]

/-- The end is line 4 and not line 3, because the slashes hide the brace. -/
theorem address_hides_brace : findOpeningBrace addressLines 0 4 = some ⟨1, 14⟩ ∧
    getBraceMatchEndLine addressLines ⟨1, 14⟩ = 4 ∧ EndsAtMatch addressLines 0 ⟨1, 14⟩ 3 ∧
      ¬ EndsAtMatch addressLines 0 ⟨1, 14⟩ (getBraceMatchEndLine addressLines ⟨1, 14⟩) := by
  refine ⟨by decide, by decide, endsAtMatch_iff.mpr (by decide), endsAtMatch_iff.not.mpr (by decide)⟩

end Builderbot.DiffViewer.BraceScopes
