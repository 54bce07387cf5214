import Builderbot.Lib.Transducer
import Builderbot.Staged.TerminalOutput

/-!
# Escape sequences in command output

`TerminalOutputProcessor` of `apps/staged/src-tauri/src/terminal_output.rs` on text with control sequences in it, each in
its grammar. After an escape character the processor takes one character for the whole sequence unless it opens a longer
one, so an escape with intermediate bytes leaves all but the first of them in the text. Inside a control string it takes
an escape character and the next one for a pair, so an escape character before the terminator hides it.

`lines_eq_iff` says what is left of an input, and for which sequences nothing is, whatever is around them.
-/

namespace Builderbot.Staged.EscapeSequences

open Builderbot.Lib.Transducer TerminalOutputProcessor

/-! ## The grammar -/

def esc : Char := '\x1b'
def bel : Char := '\x07'
/-- The control sequence introducer in one character. -/
def csi : Char := '\u009b'
/-- The operating system command in one character. -/
def osc : Char := '\u009d'
/-- The string terminator in one character. -/
def st : Char := '\u009c'

def IsParameter (c : Char) : Prop := 0x30 ≤ c.toNat ∧ c.toNat ≤ 0x3F
def IsIntermediate (c : Char) : Prop := 0x20 ≤ c.toNat ∧ c.toNat ≤ 0x2F
def IsFinal (c : Char) : Prop := 0x40 ≤ c.toNat ∧ c.toNat ≤ 0x7E
def IsEscapeFinal (c : Char) : Prop := 0x30 ≤ c.toNat ∧ c.toNat ≤ 0x7E

/-- How a control string begins. -/
inductive Opening where
  | operatingSystemCommand
  | deviceControl
  | startOfString
  | privacyMessage
  | applicationCommand
  | operatingSystemCommandC1
deriving DecidableEq

/-- How it ends. -/
inductive Terminator where
  | bel
  | st
deriving DecidableEq

def Opening.chars : Opening → List Char
  | .operatingSystemCommand => [esc, ']']
  | .deviceControl => [esc, 'P']
  | .startOfString => [esc, 'X']
  | .privacyMessage => [esc, '^']
  | .applicationCommand => [esc, '_']
  | .operatingSystemCommandC1 => [osc]

def Terminator.chars : Terminator → List Char
  | .bel => [EscapeSequences.bel]
  | .st => [esc, '\\']

/-- The characters that open a longer sequence after an escape character. -/
def introducers : List Char := ['[', ']', 'P', 'X', '^', '_']

inductive ControlSequence where
  /-- With the introducer in two characters or in one. -/
  | csi (c1 : Bool) (parameters intermediates : List Char) (final : Char)
      (parameters_ok : ∀ c ∈ parameters, IsParameter c) (intermediates_ok : ∀ c ∈ intermediates, IsIntermediate c)
      (final_ok : IsFinal final)
  /-- No terminator is inside. -/
  | controlString (opening : Opening) (content : List Char) (terminator : Terminator)
      (no_bel : bel ∉ content) (no_st : st ∉ content) (no_esc_st : ¬ [esc, '\\'] <:+: content)
  | escape (intermediates : List Char) (final : Char) (intermediates_ok : ∀ c ∈ intermediates, IsIntermediate c)
      (final_ok : IsEscapeFinal final) (no_introducer : intermediates = [] → final ∉ introducers)

def ControlSequence.chars : ControlSequence → List Char
  | .csi c1 parameters intermediates final _ _ _ =>
    (if c1 then [EscapeSequences.csi] else [esc, '[']) ++ parameters ++ intermediates ++ [final]
  | .controlString opening content terminator _ _ _ => opening.chars ++ content ++ terminator.chars
  | .escape intermediates final _ _ _ => esc :: intermediates ++ [final]

/-- What an input is made of: characters that are printed or move to another line or column, and control sequences. -/
inductive Piece where
  | char (c : Char) (plain : IsPlain c)
  | sequence (q : ControlSequence)

def Piece.chars : Piece → List Char
  | .char c _ => [c]
  | .sequence q => q.chars

def Piece.text : Piece → List Char
  | .char c _ => [c]
  | .sequence _ => []

/-- The input as the processor gets it. -/
def input (pieces : List Piece) : List Char := pieces.flatMap Piece.chars

/-- The input without its control sequences. -/
def text (pieces : List Piece) : List Char := pieces.flatMap Piece.text

/-- The processor after some chunks. -/
def processChunks (chunks : List (List Char)) : TerminalOutputProcessor :=
  chunks.foldl TerminalOutputProcessor.processChunk {}

/-- The lines at the end and those shown while more may follow. -/
def lines (p : TerminalOutputProcessor) : List (List Char) × List (List Char) := (p.finish, p.snapshotLines)

/-! ## What is left -/

/-- The escape characters at the end of a text. -/
def trailingEscapes (s : List Char) : ℕ := (s.reverse.takeWhile (· = esc)).length

namespace ControlSequence

/-- The processor takes the terminator of a control string for something else. -/
def hidesTerminator : ControlSequence → Bool
  | .controlString _ content _ _ _ _ => trailingEscapes content % 2 = 1
  | .csi .. | .escape .. => false

/-- The characters after the one that the processor takes for the end of an escape. -/
def leftover : ControlSequence → List Char
  | .escape (_ :: intermediates) final _ _ _ => intermediates ++ [final]
  | .escape [] _ _ _ _ | .csi .. | .controlString .. => []

/-- Inside a control string the sequence is read as its end. -/
def endsString : ControlSequence → Bool
  | .controlString _ content _ _ _ _ => trailingEscapes content % 2 = 0
  | .escape [] final _ _ _ => final = '\\'
  | .escape (_ :: _) _ _ _ _ | .csi .. => false

/-- Nothing is left of the sequence: it has no intermediate bytes if it is an escape, and an even number of escape
characters before its terminator if it is a control string. -/
def Removed : ControlSequence → Prop
  | .csi .. => True
  | .controlString _ content _ _ _ _ => trailingEscapes content % 2 = 0
  | .escape intermediates _ _ _ _ => intermediates = []

end ControlSequence

/-- A piece after a control string whose terminator was hidden, or elsewhere. -/
def readPiece : Bool → Piece → Bool × List Char
  | false, .char c _ => (false, [c])
  | false, .sequence q => (q.hidesTerminator, q.leftover)
  | true, .char _ _ => (true, [])
  | true, .sequence q => (!q.endsString, [])

/-- The characters of an input that are shown. -/
def shown (pieces : List Piece) : List Char := (transduce readPiece false pieces).2

/-! ## The processor as a filter in front of the lines -/

/-- One character of the filter: the next state, and the character if it is let through. -/
def filterChar (state : EscapeState) (ch : Char) : EscapeState × List Char :=
  let r := ({ escapeState := state } : TerminalOutputProcessor).consumeEscapeOrControl ch
  (r.1, r.2.toList)

variable (p : TerminalOutputProcessor) (state : EscapeState)

theorem processVisibleChar_escapeState (ch : Char) :
    ({ p with escapeState := state } : TerminalOutputProcessor).processVisibleChar ch =
      { p.processVisibleChar ch with escapeState := state } := by
  obtain ⟨finalizedLines, currentText, pendingCr, _⟩ := p
  by_cases hlf : ch = '\n'
  · cases pendingCr <;> simp [processVisibleChar, push, hlf]
  · by_cases hcr : ch = '\r'
    · cases pendingCr <;> simp [processVisibleChar, hcr]
    · cases pendingCr <;> simp [processVisibleChar, hlf, hcr]

theorem foldl_processVisibleChar_escapeState (s : List Char) :
    s.foldl processVisibleChar { p with escapeState := state } =
      { s.foldl processVisibleChar p with escapeState := state } := by
  induction s generalizing p with
  | nil => rfl
  | cons c s ih => rw [List.foldl_cons, processVisibleChar_escapeState, ih, List.foldl_cons]

/-- The filter decides what of a character becomes visible. -/
theorem processChar_eq (ch : Char) :
    p.processChar ch = { (filterChar p.escapeState ch).2.foldl processVisibleChar p with
      escapeState := (filterChar p.escapeState ch).1 } := by
  have hconsume : p.consumeEscapeOrControl ch =
      ({ escapeState := p.escapeState } : TerminalOutputProcessor).consumeEscapeOrControl ch := rfl
  rw [processChar, filterChar, hconsume]
  cases (({ escapeState := p.escapeState } : TerminalOutputProcessor).consumeEscapeOrControl ch) with
  | mk state clean =>
    cases clean with
    | none => rfl
    | some c => exact processVisibleChar_escapeState p state c

/-- A chunk is filtered as a whole. -/
theorem processChunk_eq (raw : List Char) :
    p.processChunk raw = { (transduce filterChar p.escapeState raw).2.foldl processVisibleChar p with
      escapeState := (transduce filterChar p.escapeState raw).1 } := by
  rw [processChunk]
  induction raw generalizing p with
  | nil => rfl
  | cons ch raw ih =>
    rw [List.foldl_cons, ih, processChar_eq, transduce_cons, List.foldl_append]
    simp only [foldl_processVisibleChar_escapeState]

/-- Where the chunks are cut does not matter. -/
theorem processChunks_eq (chunks : List (List Char)) :
    processChunks chunks = ({} : TerminalOutputProcessor).processChunk chunks.flatten := by
  have hall : ∀ p : TerminalOutputProcessor, chunks.foldl TerminalOutputProcessor.processChunk p =
      p.processChunk chunks.flatten := by
    induction chunks with
    | nil => exact fun p => rfl
    | cons chunk chunks ih =>
      intro p
      rw [List.foldl_cons, ih, List.flatten_cons, processChunk, processChunk, processChunk, List.foldl_append]
  exact hall {}

/-! ## How each piece is read -/

/-- The state before a piece. -/
def stateBefore : Bool → EscapeState
  | false => .ground
  | true => .osc

variable {c : Char}

/-- Plain text passes the filter. -/
theorem filterChar_of_plain (hc : IsPlain c) : filterChar .ground c = (.ground, [c]) := by
  rw [filterChar, consumeEscapeOrControl_of_plain rfl hc]
  rfl

/-- Inside a control string only two characters are not passed over. -/
theorem filterChar_osc (hbel : c ≠ bel) (hesc : c ≠ esc) : filterChar .osc c = (.osc, []) := by
  have hbel' : c.toNat ≠ 0x07 := fun h => hbel (Char.toNat_inj.mp h)
  have hesc' : c.toNat ≠ 0x1B := fun h => hesc (Char.toNat_inj.mp h)
  simp [filterChar, consumeEscapeOrControl, hbel', hesc']

/-- A control string swallows what is printed. -/
theorem filterChar_osc_of_le (h : 0x20 ≤ c.toNat) : filterChar .osc c = (.osc, []) := by
  apply filterChar_osc
  · rintro rfl
    exact absurd h (by decide)
  · rintro rfl
    exact absurd h (by decide)

/-- An escape that ends no control string is swallowed with the character after it. -/
theorem filterChar_oscEsc (h : c ≠ '\\') : filterChar .oscEsc c = (.osc, []) := by
  simp [filterChar, consumeEscapeOrControl, h]

/-- A control sequence goes on up to its final character. -/
theorem filterChar_csi (h : ¬ IsFinal c) : filterChar .csi c = (.csi, []) := by
  have hfinal : isCsiFinalByte c = false := by
    rw [isCsiFinalByte, ← Bool.decide_and, decide_eq_false_iff_not]
    exact h
  simp [filterChar, consumeEscapeOrControl, hfinal]

/-- The final character ends a control sequence. -/
theorem filterChar_csi_of_isFinal (h : IsFinal c) : filterChar .csi c = (.ground, []) := by
  have hfinal : isCsiFinalByte c = true := by
    rw [isCsiFinalByte, ← Bool.decide_and, decide_eq_true_eq]
    exact h
  simp [filterChar, consumeEscapeOrControl, hfinal]

/-- Any other escape ends after one character. -/
theorem filterChar_esc (h : c ∉ introducers) : filterChar .esc c = (.ground, []) := by
  simp only [introducers, List.mem_cons, List.not_mem_nil, or_false, not_or] at h
  simp [filterChar, consumeEscapeOrControl, h]

theorem isPlain_of_le (hlo : 0x20 ≤ c.toNat) (hhi : c.toNat ≤ 0x7E) : IsPlain c := by
  intro h
  simp only [isControl, Bool.or_eq_true, Bool.and_eq_true, decide_eq_true_eq] at h
  omega

theorem transduce_plain (hc : IsPlain c) (t : Bool) : transduce filterChar (stateBefore t) [c] =
      (stateBefore (readPiece t (.char c hc)).1, (readPiece t (.char c hc)).2) := by
  cases t with
  | false =>
    rw [stateBefore, transduce_cons, filterChar_of_plain hc]
    rfl
  | true =>
    have hpass : filterChar .osc c = (.osc, []) := by
      apply filterChar_osc
      · rintro rfl
        exact absurd (hc (by decide)) (by decide)
      · rintro rfl
        exact absurd (hc (by decide)) (by decide)
    rw [stateBefore, transduce_cons, hpass]
    rfl

section Sequences

variable {s : List Char}

theorem trailingEscapes_concat (s : List Char) (c : Char) :
    trailingEscapes (s ++ [c]) = if c = esc then trailingEscapes s + 1 else 0 := by
  rw [trailingEscapes, List.reverse_append, List.reverse_singleton, List.singleton_append]
  by_cases h : c = esc
  · rw [List.takeWhile_cons_of_pos (by simpa using h), List.length_cons, if_pos h, trailingEscapes]
  · rw [List.takeWhile_cons_of_neg (by simpa using h), if_neg h]
    rfl

theorem exists_concat_of_trailingEscapes (h : trailingEscapes s ≠ 0) : ∃ t, s = t ++ [esc] := by
  rcases List.eq_nil_or_concat s with rfl | ⟨t, c, rfl⟩
  · exact absurd rfl h
  · rw [List.concat_eq_append, trailingEscapes_concat] at h
    by_cases hc : c = esc
    · exact ⟨t, by rw [hc, List.concat_eq_append]⟩
    · rw [if_neg hc] at h
      exact absurd rfl h

/-- After the content of a control string an escape character waits for its partner when it is the last of an odd number. -/
theorem transduce_content (hbel : bel ∉ s) (hst : ¬ [esc, '\\'] <:+: s) :
    transduce filterChar .osc s = (if trailingEscapes s % 2 = 0 then .osc else .oscEsc, []) := by
  induction s using List.reverseRecOn with
  | nil => rfl
  | append_singleton s c ih =>
    rw [List.mem_append, not_or, List.mem_singleton] at hbel
    have hprev := ih hbel.1 fun h => hst (h.trans (List.prefix_append s [c]).isInfix)
    rw [transduce_append, hprev, trailingEscapes_concat]
    by_cases hparity : trailingEscapes s % 2 = 0
    · rw [if_pos hparity]
      by_cases hc : c = esc
      · subst hc
        rw [if_pos rfl, if_neg (by omega)]
        rfl
      · rw [if_neg hc, transduce_cons, filterChar_osc (Ne.symm hbel.2) hc]
        rfl
    · rw [if_neg hparity]
      have hc : c ≠ '\\' := by
        rintro rfl
        obtain ⟨t, rfl⟩ := exists_concat_of_trailingEscapes fun h => hparity (by rw [h])
        exact hst ⟨t, [], by simp⟩
      rw [transduce_cons, filterChar_oscEsc hc]
      have heven : (if c = esc then trailingEscapes s + 1 else 0) % 2 = 0 := by
        split
        · omega
        · rfl
      rw [if_pos heven]
      rfl

/-- A terminator is seen unless an escape character waits for its partner. -/
theorem transduce_terminator (terminator : Terminator) :
    transduce filterChar .osc terminator.chars = (.ground, []) ∧
      transduce filterChar .oscEsc terminator.chars = (.osc, []) := by
  cases terminator with
  | bel => exact ⟨rfl, rfl⟩
  | st => exact ⟨rfl, rfl⟩

/-- An opening leads into a control string from either state. -/
theorem transduce_opening (opening : Opening) (t : Bool) :
    transduce filterChar (stateBefore t) opening.chars = (.osc, []) := by
  cases t with
  | false =>
    cases opening with
    | _ => rfl
  | true =>
    cases opening with
    | _ => rfl

/-- Whether a control string is over depends on the escapes before its terminator. -/
theorem transduce_controlString (opening : Opening) (content : List Char) (terminator : Terminator)
    (hbel : bel ∉ content) (hst : ¬ [esc, '\\'] <:+: content) (t : Bool) :
    transduce filterChar (stateBefore t) (opening.chars ++ content ++ terminator.chars) =
      (if trailingEscapes content % 2 = 0 then .ground else .osc, []) := by
  rw [transduce_append, transduce_append, transduce_opening, transduce_content hbel hst]
  by_cases hparity : trailingEscapes content % 2 = 0
  · rw [if_pos hparity, if_pos hparity, (transduce_terminator terminator).1]
    rfl
  · rw [if_neg hparity, if_neg hparity, (transduce_terminator terminator).2]
    rfl

theorem transduce_osc_of_le (h : ∀ c ∈ s, 0x20 ≤ c.toNat) : transduce filterChar .osc s = (.osc, []) :=
  transduce_silent filterChar fun c hc => filterChar_osc_of_le (h c hc)

theorem transduce_csi {parameters intermediates : List Char} {final : Char} (c1 : Bool)
    (hparameters : ∀ c ∈ parameters, IsParameter c) (hintermediates : ∀ c ∈ intermediates, IsIntermediate c)
    (hfinal : IsFinal final) (t : Bool) :
    transduce filterChar (stateBefore t)
      ((if c1 then [csi] else [esc, '[']) ++ parameters ++ intermediates ++ [final]) = (stateBefore t, []) := by
  have hbytes : ∀ c ∈ parameters ++ intermediates, ¬ IsFinal c ∧ 0x20 ≤ c.toNat := by
    intro c hc
    rcases List.mem_append.mp hc with hc | hc
    · have hrange := hparameters c hc
      unfold IsParameter at hrange
      unfold IsFinal
      omega
    · have hrange := hintermediates c hc
      unfold IsIntermediate at hrange
      unfold IsFinal
      omega
  rw [List.append_assoc, List.append_assoc, transduce_append, ← List.append_assoc, transduce_append]
  cases t with
  | false =>
    have hopen : transduce filterChar .ground (if c1 then [csi] else [esc, '[']) = (.csi, []) := by
      cases c1 with
      | true => rfl
      | false => rfl
    rw [stateBefore, hopen, transduce_silent filterChar fun c hc => filterChar_csi (hbytes c hc).1, transduce_cons,
      filterChar_csi_of_isFinal hfinal]
    rfl
  | true =>
    have hopen : transduce filterChar .osc (if c1 then [csi] else [esc, '[']) = (.osc, []) := by
      cases c1 with
      | true => rfl
      | false => rfl
    unfold IsFinal at hfinal
    rw [stateBefore, hopen, transduce_osc_of_le fun c hc => (hbytes c hc).2, transduce_cons,
      filterChar_osc_of_le (by omega)]
    rfl

/-- Intermediate bytes and final bytes are printed characters elsewhere. -/
theorem isPlain_of_escape {intermediates : List Char} {final : Char}
    (hintermediates : ∀ c ∈ intermediates, IsIntermediate c) (hfinal : IsEscapeFinal final) :
    ∀ c ∈ intermediates ++ [final], IsPlain c ∧ 0x20 ≤ c.toNat := by
  intro c hc
  rcases List.mem_append.mp hc with hc | hc
  · have hrange := hintermediates c hc
    unfold IsIntermediate at hrange
    exact ⟨isPlain_of_le hrange.1 (by omega), hrange.1⟩
  · obtain rfl := List.mem_singleton.mp hc
    unfold IsEscapeFinal at hfinal
    exact ⟨isPlain_of_le (by omega) hfinal.2, by omega⟩

theorem not_introducer_of_isIntermediate (h : IsIntermediate c) : c ∉ introducers := by
  intro hc
  have hall : ∀ d ∈ introducers, 0x2F < d.toNat := by simp [introducers]
  have hlt := hall c hc
  unfold IsIntermediate at h
  omega

/-- One case for each kind of sequence. -/
theorem transduce_sequence (q : ControlSequence) (t : Bool) :
    transduce filterChar (stateBefore t) q.chars =
      (stateBefore (readPiece t (.sequence q)).1, (readPiece t (.sequence q)).2) := by
  cases q with
  | csi c1 parameters intermediates final hparameters hintermediates hfinal =>
    rw [ControlSequence.chars, transduce_csi c1 hparameters hintermediates hfinal]
    cases t with
    | false => rfl
    | true => rfl
  | controlString opening content terminator hbel _ hst =>
    rw [ControlSequence.chars, transduce_controlString opening content terminator hbel hst]
    by_cases hparity : trailingEscapes content % 2 = 0
    · rw [if_pos hparity]
      cases t with
      | false => simp [readPiece, ControlSequence.hidesTerminator, ControlSequence.leftover, hparity, stateBefore]
      | true => simp [readPiece, ControlSequence.endsString, hparity, stateBefore]
    · rw [if_neg hparity]
      cases t with
      | false =>
        have hodd : trailingEscapes content % 2 = 1 := by omega
        simp [readPiece, ControlSequence.hidesTerminator, ControlSequence.leftover, hodd, stateBefore]
      | true => simp [readPiece, ControlSequence.endsString, hparity, stateBefore]
  | escape intermediates final hintermediates hfinal hintroducer =>
    have hprinted := isPlain_of_escape hintermediates hfinal
    -- the filter ends an escape at its second character, so intermediates leave the rest behind
    cases intermediates with
    | nil =>
      cases t with
      | false =>
        change transduce filterChar .ground [esc, final] = _
        rw [transduce_cons, transduce_cons]
        change ((transduce filterChar (filterChar .esc final).1 []).1, (filterChar .esc final).2 ++ []) = _
        rw [filterChar_esc (hintroducer rfl)]
        rfl
      | true =>
        change ((transduce filterChar (filterChar .oscEsc final).1 []).1, (filterChar .oscEsc final).2 ++ []) = _
        by_cases hst : final = '\\'
        · subst hst
          rfl
        · rw [filterChar_oscEsc hst]
          simp [readPiece, ControlSequence.endsString, hst, stateBefore]
    | cons i intermediates =>
      rw [List.cons_append, List.forall_mem_cons] at hprinted
      have hi := (List.forall_mem_cons.mp hintermediates).1
      cases t with
      | false =>
        change ((transduce filterChar (filterChar .esc i).1 (intermediates ++ [final])).1,
          (filterChar .esc i).2 ++ (transduce filterChar (filterChar .esc i).1 (intermediates ++ [final])).2) = _
        rw [filterChar_esc (not_introducer_of_isIntermediate hi),
          transduce_echo fun c hc => filterChar_of_plain (hprinted.2 c hc).1]
        rfl
      | true =>
        have hne : i ≠ '\\' := by
          rintro rfl
          exact absurd hi.2 (by decide)
        change ((transduce filterChar (filterChar .oscEsc i).1 (intermediates ++ [final])).1,
          (filterChar .oscEsc i).2 ++ (transduce filterChar (filterChar .oscEsc i).1 (intermediates ++ [final])).2) = _
        rw [filterChar_oscEsc hne, transduce_osc_of_le fun c hc => (hprinted.2 c hc).2]
        rfl

end Sequences

/-- A piece is read as `readPiece` says. -/
theorem transduce_piece (t : Bool) (p : Piece) :
    transduce filterChar (stateBefore t) p.chars = (stateBefore (readPiece t p).1, (readPiece t p).2) := by
  cases p with
  | char c hc => exact transduce_plain hc t
  | sequence q => exact transduce_sequence q t

/-- The characters that the filter lets through are those that are shown of the pieces. -/
theorem transduce_input (pieces : List Piece) : (transduce filterChar .ground (input pieces)).2 = shown pieces := by
  have hsim := transduce_flatMap filterChar transduce_piece false pieces
  rw [stateBefore] at hsim
  rw [input, hsim, shown]

/-! ## Lines -/

/-- The lines of a text without control sequences. -/
def linesOf (s : List Char) : List (List Char) × List (List Char) :=
  lines (s.foldl processVisibleChar {})

theorem lines_escapeState : lines { p with escapeState := state } = lines p := by
  obtain ⟨finalizedLines, currentText, pendingCr, _⟩ := p
  cases pendingCr with
  | false => rfl
  | true => rfl

/-- The lines are those of what passes the filter. -/
theorem lines_processChunks (chunks : List (List Char)) :
    lines (processChunks chunks) = linesOf (transduce filterChar .ground chunks.flatten).2 := by
  rw [processChunks_eq, processChunk_eq, lines_escapeState, linesOf]

variable {pieces : List Piece}

theorem lines_input {chunks : List (List Char)} (h : chunks.flatten = input pieces) :
    lines (processChunks chunks) = linesOf (shown pieces) := by
  rw [lines_processChunks, h, transduce_input]

theorem isPlain_of_mem_text (h : c ∈ text pieces) : IsPlain c := by
  obtain ⟨p, -, hp⟩ := List.mem_flatMap.mp h
  cases p with
  | char d hd => rwa [List.mem_singleton.mp hp]
  | sequence q => exact absurd hp List.not_mem_nil

/-- The text alone keeps its lines. -/
theorem lines_text (pieces : List Piece) : lines (processChunks [text pieces]) = linesOf (text pieces) := by
  rw [lines_processChunks, List.flatten_singleton,
    transduce_echo fun c hc => filterChar_of_plain (isPlain_of_mem_text hc)]

/-! ## Sequences that are removed -/

/-- A sequence that is removed leaves no trace. -/
theorem ControlSequence.Removed.readPiece {q : ControlSequence} (h : q.Removed) :
    readPiece false (.sequence q) = (false, []) := by
  cases q with
  | csi => rfl
  | controlString opening content =>
    have heven : trailingEscapes content % 2 = 0 := h
    simp [EscapeSequences.readPiece, hidesTerminator, leftover, heven]
  | escape intermediates =>
    have hnone : intermediates = [] := h
    subst hnone
    rfl

/-- Where all sequences are removed, the text is shown. -/
theorem shown_of_removed (h : ∀ q, .sequence q ∈ pieces → q.Removed) : shown pieces = text pieces := by
  have hall : transduce readPiece false pieces = (false, text pieces) := by
    induction pieces with
    | nil => rfl
    | cons p pieces ih =>
      have hrest := ih fun q hq => h q (List.mem_cons_of_mem p hq)
      rw [transduce_cons]
      cases p with
      | char c hc =>
        rw [readPiece, hrest]
        rfl
      | sequence q =>
        rw [(h q List.mem_cons_self).readPiece, hrest]
        rfl
  rw [shown, hall]

/-- Characters that stay on the line. -/
theorem foldl_processVisibleChar {s : List Char} (h : ∀ c ∈ s, 0x20 ≤ c.toNat) (acc : List Char) :
    s.foldl processVisibleChar { currentText := acc } = { currentText := acc ++ s } := by
  induction s generalizing acc with
  | nil => rw [List.append_nil, List.foldl_nil]
  | cons c s ih =>
    obtain ⟨hc, hs⟩ := List.forall_mem_cons.mp h
    have hlf : c ≠ '\n' := by
      rintro rfl
      exact absurd hc (by decide)
    have hcr : c ≠ '\r' := by
      rintro rfl
      exact absurd hc (by decide)
    have hstep : ({ currentText := acc } : TerminalOutputProcessor).processVisibleChar c = { currentText := acc ++ [c] } := by
      simp [processVisibleChar, hlf, hcr]
    rw [List.foldl_cons, hstep, ih hs, List.append_assoc, List.singleton_append]

theorem linesOf_printed {s : List Char} (hne : s ≠ []) (h : ∀ c ∈ s, 0x20 ≤ c.toNat) : linesOf s = ([s], [s]) := by
  have hfold := foldl_processVisibleChar h []
  rw [List.nil_append] at hfold
  rw [linesOf, hfold]
  simp [lines, finish, snapshotLines, hne]

theorem linesOf_nil : linesOf [] = ([], []) := rfl

/-- What is left of an escape shows when nothing else is there, and what a control string takes with it when one character
follows. -/
theorem removed_of_lines_eq {q : ControlSequence}
    (hself : linesOf (shown [.sequence q]) = linesOf [])
    (hnext : linesOf (shown [.sequence q, .char 'x' (by decide)]) = linesOf ['x']) : q.Removed := by
  cases q with
  | csi => trivial
  | controlString opening content terminator hbel hst hesc =>
    by_contra hodd
    have hparity : trailingEscapes content % 2 = 1 := by
      rw [ControlSequence.Removed] at hodd
      omega
    have hshown : shown [.sequence (.controlString opening content terminator hbel hst hesc),
        .char 'x' (by decide)] = [] := by
      simp [shown, readPiece, ControlSequence.hidesTerminator, ControlSequence.leftover, hparity]
    rw [hshown, linesOf_nil, linesOf_printed (by decide) (List.forall_mem_singleton.mpr (by decide))] at hnext
    simp at hnext
  | escape intermediates final hintermediates hfinal hintroducer =>
    cases intermediates with
    | nil => rfl
    | cons i intermediates =>
      have hprinted := isPlain_of_escape hintermediates hfinal
      have hshown : shown [.sequence (.escape (i :: intermediates) final hintermediates hfinal hintroducer)] =
          intermediates ++ [final] := by
        simp [shown, readPiece, ControlSequence.leftover]
      have hrange : ∀ c ∈ intermediates ++ [final], 0x20 ≤ c.toNat :=
        fun c hc => (hprinted c (List.mem_cons_of_mem i hc)).2
      rw [hshown, linesOf_nil, linesOf_printed (by simp) hrange] at hself
      simp at hself

/-- The lines are those of the text alone when what is left of the sequences, and what hidden terminators take away, does
not change the lines; and of all inputs with sequences of some kinds this is so exactly when these sequences are removed. -/
theorem lines_eq_iff (allowed : Set ControlSequence) :
    (∀ (pieces : List Piece) (chunks : List (List Char)), chunks.flatten = input pieces →
      (lines (processChunks chunks) = lines (processChunks [text pieces]) ↔
        linesOf (shown pieces) = linesOf (text pieces))) ∧
    ((∀ pieces : List Piece, (∀ q, .sequence q ∈ pieces → q ∈ allowed) →
        ∀ chunks : List (List Char), chunks.flatten = input pieces →
          lines (processChunks chunks) = lines (processChunks [text pieces])) ↔
      ∀ q ∈ allowed, q.Removed) := by
  refine ⟨fun pieces chunks hchunks => ?_, fun h q hq => ?_, fun h pieces hpieces chunks hchunks => ?_⟩
  · rw [lines_input hchunks, lines_text]
  · have hlines : ∀ pieces : List Piece, (∀ q', .sequence q' ∈ pieces → q' = q) →
        linesOf (shown pieces) = linesOf (text pieces) := by
      intro pieces hpieces
      have hflat : [input pieces].flatten = input pieces := List.flatten_singleton
      rw [← lines_input hflat, ← lines_text]
      exact h pieces (fun q' hq' => hpieces q' hq' ▸ hq) _ hflat
    exact removed_of_lines_eq (hlines _ (by simp)) (hlines _ (by simp))
  · rw [lines_input hchunks, lines_text, shown_of_removed fun q hq => h q (hpieces q hq)]

/-- The selection of the character set that a reset of the attributes comes with. -/
def selectAscii : ControlSequence :=
  .escape ['('] 'B' (List.forall_mem_singleton.mpr ⟨by decide, by decide⟩) ⟨by decide, by decide⟩ (by decide)

/-- Its final byte is shown. -/
theorem lines_ne_selectAscii :
    lines (processChunks [input [.sequence selectAscii]]) = ([['B']], [['B']]) ∧
      lines (processChunks [text [.sequence selectAscii]]) = ([], []) := by
  decide

end Builderbot.Staged.EscapeSequences
