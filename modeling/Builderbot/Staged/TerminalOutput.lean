import Mathlib.Data.List.Induction
import Builderbot.Lib.Utf16

/-!
# Terminal lines from output chunks

Three renderers of command output: `processChunksToLines` and `createIncrementalProcessor` of
`apps/staged/src/lib/features/actions/processOutput.ts`, and `TerminalOutputProcessor` of
`apps/staged/src-tauri/src/terminal_output.rs`. The first two look ahead inside a chunk to tell `\r\n`
from a bare `\r`; the third defers every `\r` to the next character.

`processUnits_eq_foldl` says that looking ahead and deferring come to the same at the end of a chunk.
Everything else in `terminal_renderers_agree` follows from that: chunk boundaries cannot matter to a
renderer that reads one character at a time.
-/

namespace Builderbot.Staged

open Builderbot.Lib

/-! ## The renderers of the web view -/

/-- The stream a chunk was read from. -/
inductive OutputStream where
  | stdout
  | stderr
deriving DecidableEq, Repr

/-- `OutputChunk`, with its text in code units. -/
structure OutputChunk where
  chunk : List UInt16
  stream : OutputStream
deriving DecidableEq, Repr

/-- `TerminalLine`. -/
structure TerminalLine where
  text : List UInt16
  stream : OutputStream
deriving DecidableEq, Repr

/-- The code unit of `\n`. -/
def lf : UInt16 := '\n'.toNat.toUInt16

/-- The code unit of `\r`. -/
def cr : UInt16 := '\r'.toNat.toUInt16

/-- The variables that both renderers of the web view keep. -/
structure LineState where
  lines : List TerminalLine
  currentText : List UInt16
  currentStream : OutputStream
  pendingCR : Bool
deriving DecidableEq, Repr

namespace LineState

/-- Before the first chunk. -/
def init : LineState := ⟨[], [], .stdout, false⟩

variable (s : LineState) (stream : OutputStream)

/-- A newline: the current line is finished. -/
def push : LineState :=
  { s with
    lines := s.lines ++ [⟨s.currentText, s.currentStream⟩]
    currentText := []
    currentStream := stream }

/-- A bare carriage return: the current line is to be overwritten. -/
def reset : LineState := { s with currentText := [], currentStream := stream }

/-- The body of the loop over a chunk, at the unit `ch` with `next` after it in the chunk. The second
component says that `next` is used up as well. -/
def turn (ch : UInt16) (next : Option UInt16) : LineState × Bool :=
  if s.pendingCR ∧ ch = lf then ({ s with pendingCR := false }.push stream, false)
  else
    let s := if s.pendingCR then { s with pendingCR := false }.reset stream else s
    if ch = lf then (s.push stream, false)
    else if ch = cr then
      match next with
      | some n => if n = lf then (s.push stream, true) else (s.reset stream, false)
      -- at the end of the chunk the next one decides
      | none => ({ s with pendingCR := true }, false)
    else ({ s with currentText := s.currentText ++ [ch], currentStream := stream }, false)

/-- The loop over a chunk. -/
def processUnits : List UInt16 → LineState → LineState
  | [], s => s
  | [ch], s => (s.turn stream ch none).1
  | ch :: next :: rest, s =>
    let (s, skip) := s.turn stream ch (some next)
    if skip then processUnits rest s else processUnits (next :: rest) s

/-- One chunk. -/
def processChunk (c : OutputChunk) : LineState := processUnits c.stream c.chunk s

/-- The finished lines and, unless it is empty, the current one. -/
def snapshot : List TerminalLine :=
  if s.currentText.length > 0 then s.lines ++ [⟨s.currentText, s.currentStream⟩] else s.lines

end LineState

/-- `processChunksToLines`: a carriage return that is still unresolved at the end drops the line. -/
def processChunksToLines (chunks : List OutputChunk) : List TerminalLine :=
  let s := chunks.foldl LineState.processChunk LineState.init
  if s.pendingCR then LineState.snapshot { s with currentText := [] } else s.snapshot

/-- `process` of `createIncrementalProcessor`. -/
def incrementalProcess (s : LineState) (chunks : List OutputChunk) : List TerminalLine × LineState :=
  let s := chunks.foldl LineState.processChunk s
  (s.snapshot, s)

/-- What the last of a sequence of `process` calls on a fresh processor returns. -/
def incrementalLines (s : LineState) : List (List OutputChunk) → Option (List TerminalLine)
  | [] => none
  | [chunks] => some (incrementalProcess s chunks).1
  | chunks :: rest => incrementalLines (incrementalProcess s chunks).2 rest

/-! ## The renderer of the backend -/

/-- `EscapeState`. -/
inductive EscapeState where
  | ground
  | esc
  | csi
  | osc
  | oscEsc
deriving DecidableEq, Repr

/-- `is_prompt_hostile_control`. -/
def isPromptHostileControl (c : Char) : Bool :=
  c.toNat ≤ 0x08 || c.toNat == 0x0B || c.toNat == 0x0C || (0x0E ≤ c.toNat && c.toNat ≤ 0x1F) ||
    (0x7F ≤ c.toNat && c.toNat ≤ 0x9F)

/-- `is_csi_final_byte`. -/
def isCsiFinalByte (c : Char) : Bool := 0x40 ≤ c.toNat && c.toNat ≤ 0x7E

/-- `TerminalOutputProcessor`. -/
structure TerminalOutputProcessor where
  finalizedLines : List (List Char) := []
  currentText : List Char := []
  pendingCr : Bool := false
  escapeState : EscapeState := .ground
deriving DecidableEq, Repr

namespace TerminalOutputProcessor

variable (p : TerminalOutputProcessor)

/-- `consume_escape_or_control`: the next escape state, and the character if it is visible. -/
def consumeEscapeOrControl (ch : Char) : EscapeState × Option Char :=
  match p.escapeState with
  | .ground =>
    if ch.toNat = 0x1B then (.esc, none)
    else if ch.toNat = 0x9B then (.csi, none)
    else if ch.toNat = 0x9D then (.osc, none)
    else if ch = '\n' ∨ ch = '\r' ∨ ch = '\t' then (.ground, some ch)
    else if isPromptHostileControl ch then (.ground, none)
    else (.ground, some ch)
  | .esc =>
    if ch = '[' then (.csi, none)
    else if ch = ']' ∨ ch = 'P' ∨ ch = '_' ∨ ch = '^' ∨ ch = 'X' then (.osc, none)
    else (.ground, none)
  | .csi => (if isCsiFinalByte ch then .ground else .csi, none)
  | .osc =>
    if ch.toNat = 0x07 then (.ground, none)
    else if ch.toNat = 0x1B then (.oscEsc, none)
    else (.osc, none)
  | .oscEsc => (if ch = '\\' then .ground else .osc, none)

/-- The current line is finished. -/
def push : TerminalOutputProcessor :=
  { p with finalizedLines := p.finalizedLines ++ [p.currentText], currentText := [] }

/-- `process_visible_char`. -/
def processVisibleChar (ch : Char) : TerminalOutputProcessor :=
  if p.pendingCr ∧ ch = '\n' then { p with pendingCr := false }.push
  else
    let p := if p.pendingCr then { p with pendingCr := false, currentText := [] } else p
    if ch = '\n' then p.push
    else if ch = '\r' then { p with pendingCr := true }
    else { p with currentText := p.currentText ++ [ch] }

/-- The body of the loop of `process_chunk`. -/
def processChar (ch : Char) : TerminalOutputProcessor :=
  let (escapeState, clean) := p.consumeEscapeOrControl ch
  let p := { p with escapeState }
  match clean with
  | some c => p.processVisibleChar c
  | none => p

/-- `process_chunk`. -/
def processChunk (raw : List Char) : TerminalOutputProcessor := raw.foldl processChar p

/-- `snapshot_lines`. -/
def snapshotLines : List (List Char) :=
  if p.currentText ≠ [] then p.finalizedLines ++ [p.currentText] else p.finalizedLines

/-- `finish`. -/
def finish : List (List Char) :=
  snapshotLines (if p.pendingCr then { p with currentText := [], pendingCr := false } else p)

end TerminalOutputProcessor

/-! ## Looking ahead and deferring -/

namespace LineState

variable {s : LineState} {stream : OutputStream}

/-- One labelled unit, with every carriage return left to the next unit. -/
def defer (s : LineState) (u : UInt16 × OutputStream) : LineState := (s.turn u.2 u.1 none).1

theorem cr_ne_lf : cr ≠ lf := by decide

/-- The lookahead matters only at a carriage return. -/
theorem turn_of_ne_cr {ch : UInt16} (h : ch ≠ cr) (next : Option UInt16) :
    s.turn stream ch next = (s.defer (ch, stream), false) := by
  simp only [defer, turn, if_neg h]
  split
  · rfl
  · split <;> rfl

/-- A deferred `\r\n` is the one that was looked ahead. -/
theorem turn_crlf : s.turn stream cr (some lf) = ((s.defer (cr, stream)).defer (lf, stream), true) := by
  cases hp : s.pendingCR <;> simp [defer, turn, hp, push, reset, cr_ne_lf]

/-- A bare carriage return within a chunk is the one that the next unit resolves. -/
theorem turn_bare_cr {next : UInt16} (h : next ≠ lf) :
    (s.turn stream cr (some next)).2 = false ∧
      (s.turn stream cr (some next)).1.defer (next, stream) =
        (s.defer (cr, stream)).defer (next, stream) := by
  cases hp : s.pendingCR <;> simp [defer, turn, hp, reset, h, cr_ne_lf]

/-- A chunk is read as one labelled unit after the other. -/
theorem processUnits_eq_foldl (stream : OutputStream) (raw : List UInt16) (s : LineState) :
    processUnits stream raw s = (raw.map (·, stream)).foldl defer s := by
  induction raw, s using processUnits.induct stream with
  | case1 s => rfl
  | case2 s ch => rfl
  -- a unit is skipped only between a carriage return and its line feed
  | case3 ch next rest s t hturn ih =>
    rw [processUnits, hturn]
    by_cases hcr : ch = cr
    · subst hcr
      by_cases hlf : next = lf
      · subst hlf
        rw [turn_crlf, Prod.mk.injEq] at hturn
        obtain ⟨rfl, -⟩ := hturn
        simp only [if_true, ih, List.map_cons, List.foldl_cons]
      · have hskip := (turn_bare_cr hlf : (s.turn stream cr (some next)).2 = false ∧ _).1
        rw [hturn] at hskip
        exact absurd hskip (by simp)
    · rw [turn_of_ne_cr hcr, Prod.mk.injEq] at hturn
      exact absurd hturn.2 (by decide)
  | case4 ch next rest s t skip hturn hskip ih =>
    have hskip : skip = false := by simpa using hskip
    subst hskip
    rw [processUnits, hturn]
    simp only [Bool.false_eq_true, if_false, ih, List.map_cons, List.foldl_cons]
    by_cases hcr : ch = cr
    · subst hcr
      by_cases hlf : next = lf
      · subst hlf
        rw [turn_crlf, Prod.mk.injEq] at hturn
        exact absurd hturn.2 (by decide)
      · have hbare := (turn_bare_cr hlf : (s.turn stream cr (some next)).2 = false ∧ _).2
        rw [hturn] at hbare
        rw [hbare]
    · rw [turn_of_ne_cr hcr, Prod.mk.injEq] at hturn
      rw [hturn.1]

end LineState

/-- The units of a sequence of chunks, each with the stream it came from. -/
def labelled (chunks : List OutputChunk) : List (UInt16 × OutputStream) :=
  chunks.flatMap fun c => c.chunk.map (·, c.stream)

variable (chunks : List OutputChunk)

@[simp]
theorem labelled_append (chunks' : List OutputChunk) :
    labelled (chunks ++ chunks') = labelled chunks ++ labelled chunks' :=
  List.flatMap_append

theorem foldl_processChunk (s : LineState) :
    chunks.foldl LineState.processChunk s = (labelled chunks).foldl LineState.defer s := by
  induction chunks generalizing s with
  | nil => rfl
  | cons c chunks ih =>
    have hcons : labelled (c :: chunks) = c.chunk.map (·, c.stream) ++ labelled chunks := rfl
    rw [List.foldl_cons, ih, LineState.processChunk, LineState.processUnits_eq_foldl, hcons,
      List.foldl_append]

/-- The lines at the end of a sequence of labelled units. -/
def finalLines (us : List (UInt16 × OutputStream)) : List TerminalLine :=
  let s := us.foldl LineState.defer LineState.init
  if s.pendingCR then s.lines else s.snapshot

/-- The lines shown while more may follow. -/
def liveLines (us : List (UInt16 × OutputStream)) : List TerminalLine :=
  (us.foldl LineState.defer LineState.init).snapshot

theorem processChunksToLines_eq : processChunksToLines chunks = finalLines (labelled chunks) := by
  rw [processChunksToLines, finalLines, foldl_processChunk]
  split
  · rfl
  · rfl

theorem incrementalLines_eq {groups : List (List OutputChunk)} (h : groups ≠ []) (s : LineState) :
    incrementalLines s groups =
      some ((labelled groups.flatten).foldl LineState.defer s).snapshot := by
  induction groups generalizing s with
  | nil => exact absurd rfl h
  | cons chunks rest ih =>
    cases rest with
    | nil =>
      rw [incrementalLines, incrementalProcess, List.flatten_singleton, foldl_processChunk]
    | cons next rest =>
      have hrest := ih (by simp) (incrementalProcess s chunks).2
      rw [incrementalLines, hrest, incrementalProcess, foldl_processChunk,
        List.flatten_cons (l := chunks), labelled_append, List.foldl_append]
      simp

/-! ## Lines at the end and lines on the way -/

theorem defer_pendingCR {u : UInt16} (hu : u ≠ cr) (s : LineState) (stream : OutputStream) :
    (s.defer (u, stream)).pendingCR = false := by
  by_cases hlf : u = lf
  · cases hp : s.pendingCR <;> simp [LineState.defer, LineState.turn, LineState.push, hp, hlf]
  · cases hp : s.pendingCR <;> simp [LineState.defer, LineState.turn, LineState.reset, hp, hlf, hu]

variable {us : List (UInt16 × OutputStream)}

/-- Unless the last unit is a carriage return, the two agree. -/
theorem liveLines_of_ne_cr
    (h : ∀ stream, us.getLast? ≠ some (cr, stream)) : liveLines us = finalLines us := by
  have hp : (us.foldl LineState.defer LineState.init).pendingCR = false := by
    cases us using List.reverseRecOn with
    | nil => rfl
    | append_singleton pre u =>
      obtain ⟨u, stream⟩ := u
      rw [List.foldl_append]
      refine defer_pendingCR ?_ _ stream
      rintro rfl
      exact h stream (by simp)
  rw [liveLines, finalLines, if_neg (by simp [hp])]

/-- A carriage return that is still unresolved does not show: the lines are those before it. -/
theorem liveLines_concat_cr (pre : List (UInt16 × OutputStream)) (stream : OutputStream) :
    liveLines (pre ++ [(cr, stream)]) = finalLines pre := by
  simp only [liveLines, finalLines, List.foldl_append, List.foldl_cons, List.foldl_nil]
  generalize pre.foldl LineState.defer LineState.init = s
  cases hp : s.pendingCR <;>
    simp [LineState.defer, LineState.turn, LineState.reset, LineState.snapshot, hp,
      LineState.cr_ne_lf]

/-- The lines at the end are the live ones, or these without the last one. -/
theorem finalLines_prefix_liveLines (us : List (UInt16 × OutputStream)) :
    finalLines us = liveLines us ∨ ∃ line, liveLines us = finalLines us ++ [line] := by
  simp only [liveLines, finalLines, LineState.snapshot]
  generalize us.foldl LineState.defer LineState.init = s
  by_cases hp : s.pendingCR = true
  · rw [if_pos hp]
    split
    · exact .inr ⟨_, rfl⟩
    · exact .inl rfl
  · rw [if_neg hp]
    exact .inl rfl

/-! ## The backend follows -/

/-- A control character. -/
def isControl (c : Char) : Bool := c.toNat < 0x20 || (0x7F ≤ c.toNat && c.toNat ≤ 0x9F)

/-- No control character other than `\n`, `\r` and `\t`. -/
def IsPlain (c : Char) : Prop := isControl c = true → c = '\n' ∨ c = '\r' ∨ c = '\t'

instance (c : Char) : Decidable (IsPlain c) :=
  inferInstanceAs (Decidable (isControl c = true → c = '\n' ∨ c = '\r' ∨ c = '\t'))

variable {p : TerminalOutputProcessor}

/-- Outside of escape sequences plain characters are let through. -/
theorem consumeEscapeOrControl_of_plain (hp : p.escapeState = .ground) {c : Char}
    (hc : IsPlain c) : p.consumeEscapeOrControl c = (.ground, some c) := by
  simp only [TerminalOutputProcessor.consumeEscapeOrControl, hp]
  by_cases hspace : c = '\n' ∨ c = '\r' ∨ c = '\t'
  · rw [if_pos hspace]
    obtain rfl | rfl | rfl := hspace <;> decide
  · have hctl : isControl c = false := by
      by_contra h
      exact hspace (hc (by simpa using h))
    simp only [isControl, Bool.or_eq_false_iff, Bool.and_eq_false_iff, decide_eq_false_iff_not] at hctl
    have hhostile : isPromptHostileControl c = false := by
      simp only [isPromptHostileControl, Bool.or_eq_false_iff, Bool.and_eq_false_iff,
        decide_eq_false_iff_not, beq_eq_false_iff_ne]
      omega
    rw [if_neg (by omega), if_neg (by omega), if_neg (by omega), if_neg hspace, hhostile]
    rfl

/-- They are visible. -/
theorem processChar_of_plain (hp : p.escapeState = .ground) {c : Char}
    (hc : IsPlain c) : p.processChar c = p.processVisibleChar c := by
  have hstate : { p with escapeState := .ground } = p := by rw [← hp]
  simp only [TerminalOutputProcessor.processChar, consumeEscapeOrControl_of_plain hp hc]
  rw [hstate]

/-- The backend is in the state of the web view, apart from the labels. -/
structure Follows (p : TerminalOutputProcessor) (s : LineState) : Prop where
  ground : p.escapeState = .ground
  lines : p.finalizedLines.map Utf16.encode = s.lines.map TerminalLine.text
  text : Utf16.encode p.currentText = s.currentText
  pending : p.pendingCr = s.pendingCR

/-- Units without a line end are appended, after a deferred carriage return has cleared the line. -/
theorem foldl_defer_text (hne : us ≠ []) (h : ∀ u ∈ us, u.1 ≠ lf ∧ u.1 ≠ cr) (s : LineState) :
    (us.foldl LineState.defer s).lines = s.lines ∧
      (us.foldl LineState.defer s).currentText =
        (if s.pendingCR then [] else s.currentText) ++ us.map Prod.fst ∧
      (us.foldl LineState.defer s).pendingCR = false := by
  induction us generalizing s with
  | nil => exact absurd rfl hne
  | cons u us ih =>
    obtain ⟨hu, hus⟩ := List.forall_mem_cons.mp h
    have hstep : (s.defer u).lines = s.lines ∧
        (s.defer u).currentText = (if s.pendingCR then [] else s.currentText) ++ [u.1] ∧
        (s.defer u).pendingCR = false := by
      cases hp : s.pendingCR <;>
        simp [LineState.defer, LineState.turn, LineState.reset, hp, hu.1, hu.2]
    rw [List.foldl_cons]
    by_cases hnil : us = []
    · simpa [hnil] using hstep
    · obtain ⟨hlines, htext, hpend⟩ := ih hnil hus (s.defer u)
      refine ⟨hlines.trans hstep.1, ?_, hpend⟩
      rw [htext, hstep.2.2, hstep.2.1]
      simp

variable {s : LineState}

theorem Follows.step (h : Follows p s) {c : Char}
    (hc : IsPlain c) (hus : us.map Prod.fst = Utf16.encodeChar c) :
    Follows (p.processChar c) (us.foldl LineState.defer s) := by
  rw [processChar_of_plain h.ground hc]
  obtain ⟨hground, hlines, htext, hpending⟩ := h
  by_cases hlf : c = '\n'
  · subst hlf
    obtain ⟨⟨u, stream⟩, rfl, rfl⟩ : ∃ u, us = [u] ∧ u.1 = lf := List.map_eq_singleton_iff.mp hus
    have hp : p.processVisibleChar '\n' = { p with pendingCr := false }.push := by
      cases hpc : p.pendingCr <;>
        simp [TerminalOutputProcessor.processVisibleChar, TerminalOutputProcessor.push, hpc]
    have hs : s.defer (lf, stream) = { s with pendingCR := false }.push stream := by
      cases hpc : s.pendingCR <;> simp [LineState.defer, LineState.turn, LineState.push, hpc]
    rw [hp, List.foldl_cons, List.foldl_nil, hs]
    exact ⟨hground, by simp [TerminalOutputProcessor.push, LineState.push, hlines, htext], rfl, rfl⟩
  by_cases hcr : c = '\r'
  · subst hcr
    obtain ⟨⟨u, stream⟩, rfl, rfl⟩ : ∃ u, us = [u] ∧ u.1 = cr := List.map_eq_singleton_iff.mp hus
    rw [List.foldl_cons, List.foldl_nil]
    cases hpc : s.pendingCR with
    | false =>
      rw [hpc] at hpending
      simp only [TerminalOutputProcessor.processVisibleChar, LineState.defer, LineState.turn,
        hpending, hpc, LineState.cr_ne_lf]
      exact ⟨hground, hlines, htext, rfl⟩
    | true =>
      rw [hpc] at hpending
      simp only [TerminalOutputProcessor.processVisibleChar, LineState.defer, LineState.turn,
        hpending, hpc, LineState.cr_ne_lf]
      exact ⟨hground, hlines, rfl, rfl⟩
  -- neither unit of another character is a carriage return or a line feed
  · have hunits : ∀ u ∈ us, u.1 ≠ lf ∧ u.1 ≠ cr := by
      intro u hu
      have hmem : u.1 ∈ Utf16.encodeChar c := hus ▸ List.mem_map_of_mem hu
      refine ⟨fun heq => hlf ?_, fun heq => hcr ?_⟩
      · rw [heq] at hmem
        exact (Utf16.mem_encodeChar_iff (by decide)).mp hmem
      · rw [heq] at hmem
        exact (Utf16.mem_encodeChar_iff (by decide)).mp hmem
    have hne : us ≠ [] := by
      rintro rfl
      exact Utf16.encodeChar_ne_nil c hus.symm
    obtain ⟨hl, ht, hpd⟩ := foldl_defer_text hne hunits s
    refine ⟨?_, ?_, ?_, ?_⟩
    · cases hpc : p.pendingCr <;>
        simp [TerminalOutputProcessor.processVisibleChar, hpc, hlf, hcr, hground]
    · rw [hl, ← hlines]
      cases hpc : p.pendingCr <;> simp [TerminalOutputProcessor.processVisibleChar, hpc, hlf, hcr]
    · rw [ht, hus, ← hpending, ← htext]
      cases hpc : p.pendingCr <;> simp [TerminalOutputProcessor.processVisibleChar, hpc, hlf, hcr]
    · rw [hpd]
      cases hpc : p.pendingCr <;> simp [TerminalOutputProcessor.processVisibleChar, hpc, hlf, hcr]

/-- Whatever the chunks on both sides, equal text leads to states that belong together. -/
theorem Follows.foldl {cs : List Char} (hcs : ∀ c ∈ cs, IsPlain c) (hus : us.map Prod.fst = Utf16.encode cs)
    (h : Follows p s) :
    Follows (cs.foldl TerminalOutputProcessor.processChar p) (us.foldl LineState.defer s) := by
  induction cs generalizing us p s with
  | nil =>
    rw [Utf16.encode_nil, List.map_eq_nil_iff] at hus
    rw [hus]
    exact h
  | cons c cs ih =>
    obtain ⟨hc, hrest⟩ := List.forall_mem_cons.mp hcs
    rw [Utf16.encode_cons, List.map_eq_append_iff] at hus
    obtain ⟨us₁, us₂, rfl, hus₁, hus₂⟩ := hus
    rw [List.foldl_cons, List.foldl_append]
    exact ih hrest hus₂ (h.step hc hus₁)

theorem Follows.snapshotLines (h : Follows p s) :
    p.snapshotLines.map Utf16.encode = s.snapshot.map TerminalLine.text := by
  have hempty : p.currentText ≠ [] ↔ s.currentText.length > 0 := by
    rw [← h.text, gt_iff_lt, List.length_pos_iff, ne_eq, ne_eq, Utf16.encode_eq_nil_iff]
  unfold TerminalOutputProcessor.snapshotLines LineState.snapshot
  by_cases hp : p.currentText ≠ []
  · rw [if_pos hp, if_pos (hempty.mp hp), List.map_append, List.map_append, h.lines]
    simp [h.text]
  · rw [if_neg hp, if_neg (fun hs => hp (hempty.mpr hs)), h.lines]

theorem Follows.finish (h : Follows p s) : p.finish.map Utf16.encode =
      (if s.pendingCR then s.lines else s.snapshot).map TerminalLine.text := by
  unfold TerminalOutputProcessor.finish
  by_cases hp : s.pendingCR = true
  · rw [if_pos (h.pending.trans hp), if_pos hp, ← h.lines]
    rfl
  · rw [if_neg (by rw [h.pending]; exact hp), if_neg hp]
    exact h.snapshotLines

/-! ## Agreement -/

/-- The lines of `live` are those of the chunks, except that a line whose final carriage return is
still unresolved is shown: the lines are then those of the text before the carriage return, and at
most the last one of them is missing at the end. -/
structure ShowsUnresolved (chunks : List OutputChunk) (live : List TerminalLine) : Prop where
  resolved : (∀ stream, (labelled chunks).getLast? ≠ some (cr, stream)) →
    live = processChunksToLines chunks
  unresolved : ∀ before stream, labelled chunks = labelled before ++ [(cr, stream)] →
    live = processChunksToLines before
  dropped : live = processChunksToLines chunks ∨ ∃ line, live = processChunksToLines chunks ++ [line]

theorem liveLines_showsUnresolved : ShowsUnresolved chunks (liveLines (labelled chunks)) where
  resolved h := by rw [processChunksToLines_eq, liveLines_of_ne_cr h]
  unresolved before stream h := by rw [processChunksToLines_eq, h, liveLines_concat_cr]
  dropped := by
    rw [processChunksToLines_eq]
    rcases finalLines_prefix_liveLines (labelled chunks) with heq | ⟨line, hline⟩
    · exact .inl heq.symm
    · exact .inr ⟨line, hline⟩

theorem map_fst_labelled : (labelled chunks).map Prod.fst = chunks.flatMap OutputChunk.chunk := by
  rw [labelled, List.map_flatMap]
  refine List.flatMap_congr fun c _ => ?_
  rw [List.map_map]
  exact List.map_id _

/-- The three renderers. The lines at the end depend only on the labelled units; the incremental
renderer shows the same lines for every grouping of the chunks into calls, up to a line whose carriage
return is unresolved; and the backend, fed the same text in any chunks, has the same texts, while it
runs and at the end. -/
theorem terminal_renderers_agree (chunks : List OutputChunk) :
    (∀ chunks', labelled chunks' = labelled chunks →
      processChunksToLines chunks' = processChunksToLines chunks) ∧
    ∀ groups, groups ≠ [] → groups.flatten = chunks →
      ∃ live, incrementalLines .init groups = some live ∧ ShowsUnresolved chunks live ∧
        ∀ raw : List (List Char), (∀ c ∈ raw.flatten, IsPlain c) →
          Utf16.encode raw.flatten = chunks.flatMap OutputChunk.chunk →
            let p := raw.foldl TerminalOutputProcessor.processChunk {}
            p.snapshotLines.map Utf16.encode = live.map TerminalLine.text ∧
              p.finish.map Utf16.encode = (processChunksToLines chunks).map TerminalLine.text := by
  refine ⟨fun chunks' h => by rw [processChunksToLines_eq, processChunksToLines_eq, h], ?_⟩
  intro groups hne hflatten
  refine ⟨liveLines (labelled chunks), by rw [incrementalLines_eq hne, hflatten]; rfl,
    liveLines_showsUnresolved chunks, ?_⟩
  intro raw hplain htext
  have hfold : raw.foldl TerminalOutputProcessor.processChunk {} =
      raw.flatten.foldl TerminalOutputProcessor.processChar {} := List.foldl_flatten.symm
  have hstart : Follows {} LineState.init := ⟨rfl, rfl, rfl, rfl⟩
  have hfollows := hstart.foldl hplain ((map_fst_labelled chunks).trans htext.symm)
  rw [hfold, processChunksToLines_eq]
  exact ⟨hfollows.snapshotLines, hfollows.finish⟩

/-- A `\r\n` split over two chunks, and an unresolved `\r` after it. -/
def splitCrlf : List OutputChunk :=
  [⟨[97, 13], .stdout⟩, ⟨[10, 98], .stdout⟩, ⟨[13], .stderr⟩]

/-- The backend gets the same text in other pieces: both show the line `b`, and both drop it at the
end. -/
theorem terminal_renderers_agree_splitCrlf :
    processChunksToLines splitCrlf = [⟨[97], .stdout⟩] ∧
      ∃ live, incrementalLines .init [splitCrlf.take 2, splitCrlf.drop 2] = some live ∧
        live = [⟨[97], .stdout⟩, ⟨[98], .stdout⟩] ∧
          let p := [['a'], ['\r', '\n', 'b', '\r']].foldl TerminalOutputProcessor.processChunk {}
          p.snapshotLines.map Utf16.encode = live.map TerminalLine.text ∧
            p.finish.map Utf16.encode = (processChunksToLines splitCrlf).map TerminalLine.text := by
  obtain ⟨live, hlive, -, hbackend⟩ := (terminal_renderers_agree splitCrlf).2
    [splitCrlf.take 2, splitCrlf.drop 2] (by decide) (by decide)
  have hplain : ∀ c ∈ [['a'], ['\r', '\n', 'b', '\r']].flatten, IsPlain c := by
    simp [IsPlain, isControl]
  refine ⟨by decide, live, hlive, ?_, hbackend _ hplain (by decide)⟩
  have heval : incrementalLines .init [splitCrlf.take 2, splitCrlf.drop 2] =
      some [⟨[97], .stdout⟩, ⟨[98], .stdout⟩] := by decide
  exact Option.some.inj (hlive.symm.trans heval)

end Builderbot.Staged
