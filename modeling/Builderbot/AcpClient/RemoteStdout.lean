import Mathlib.Data.List.ReduceOption
import Builderbot.Lib.Json
import Builderbot.Lib.Utf8

/-!
# Framing of remote ACP output

`normalize_remote_acp_stdout` of `crates/acp-client/src/driver.rs` reads the output of a remote agent
and writes the JSON messages in it one per line. A message may share a line with others, separated by
U+001E, or be broken over several lines; the function decides by trial parsing whether what it has
collected is a message.

The parser `serde_json` is a parameter.
-/

namespace Builderbot.AcpClient

open Lib

def REMOTE_ACP_MAX_PENDING_LINE_BYTES : ℕ := 256 * 1024

/-- How `serde_json::from_str::<Value>` ends: with a value, with an error that `is_eof`, or with
another error. -/
inductive SerdeResult where
  | ok
  | eof
  | other
deriving DecidableEq, Repr

inductive RemoteLineOutcome where
  | emit (line : List Char)
  | pending
  | dropped
deriving DecidableEq, Repr

def recordSeparator : Char := '\x1e'

/-- `sanitize_remote_acp_chunk`. -/
def sanitizeRemoteAcpChunk (chunk : List Char) : List Char :=
  chunk.filter fun c => c ≠ '\x00' ∧ c ≠ recordSeparator

/-- `decode_remote_acp_line`. -/
def decodeRemoteAcpLine (rawLine : List UInt8) : List Char × Bool := Utf8.decode rawLine

section

variable (parse : List Char → SerdeResult)

/-- The text is kept as `pending` unless it has become too long. -/
def keepPending (pending : List Char) : List Char × RemoteLineOutcome :=
  if REMOTE_ACP_MAX_PENDING_LINE_BYTES < (Utf8.encode pending).length then ([], .dropped)
  else (pending, .pending)

/-- The part of `consume_remote_acp_line` that parses, with the new value of `pending`. -/
def consumeChunk (pending chunk : List Char) : List Char × RemoteLineOutcome :=
  match parse (pending ++ chunk) with
  | .ok => ([], .emit (pending ++ chunk))
  | .eof => keepPending (pending ++ chunk)
  | .other =>
    -- recovery: what was pending is given up, and the chunk is tried alone
    match parse chunk with
    | .ok => ([], .emit chunk)
    | .eof => keepPending chunk
    | .other => ([], .dropped)

/-- `consume_remote_acp_line`, with the new value of `pending`. -/
def consumeRemoteAcpLine (pending rawLine : List Char) : List Char × RemoteLineOutcome :=
  let line := rawLine.rdropWhile fun c => c = '\r' ∨ c = '\n'
  if line = [] then (pending, .pending)
  else
    let chunk := sanitizeRemoteAcpChunk line
    if chunk = [] then (pending, .pending) else consumeChunk parse pending chunk

/-- `remote_acp_segments`. -/
def remoteAcpSegments (decodedLine : List Char) : List (List Char) :=
  (decodedLine.splitOn recordSeparator).filter fun segment => Text.trim segment ≠ []

/-- What the writer receives for one segment, with the new value of `pending`. -/
def processSegment (st : List Char × List UInt8) (segment : List Char) : List Char × List UInt8 :=
  match consumeRemoteAcpLine parse st.1 segment with
  | (pending, .emit line) => (pending, st.2 ++ Utf8.encode line ++ [10])
  | (pending, _) => (pending, st.2)

/-- The loop of `read_until`: the lines with their terminators, where `acc` holds the current line in
reverse. -/
def readLinesFrom (acc : List UInt8) : List UInt8 → List (List UInt8)
  | [] => if acc = [] then [] else [acc.reverse]
  | b :: bs => if b = 10 then (b :: acc).reverse :: readLinesFrom [] bs else readLinesFrom (b :: acc) bs

/-- One turn of the loop of `normalize_remote_acp_stdout`. -/
def processLine (st : List Char × List UInt8) (rawLine : List UInt8) : List Char × List UInt8 :=
  (remoteAcpSegments (decodeRemoteAcpLine rawLine).1).foldl (processSegment parse) st

/-- `normalize_remote_acp_stdout`: what is written for an output that is read to its end. -/
def normalizeRemoteAcpStdout (stdout : List UInt8) : List UInt8 :=
  ((readLinesFrom [] stdout).foldl (processLine parse) ([], [])).2

end

/-! ## What a remote agent sends -/

/-- A message: a compact JSON object that is not too long. -/
structure Message where
  text : List Char
  isCompactObject : Json.IsCompactObject text
  length_le : (Utf8.encode text).length ≤ REMOTE_ACP_MAX_PENDING_LINE_BYTES

inductive LineEnd where
  | lf
  | crlf

def LineEnd.text : LineEnd → List Char
  | .lf => ['\n']
  | .crlf => ['\r', '\n']

/-- How messages are sent: one on its own line, several on one line with record separators around
them (a slot without a message stands for two separators next to each other, or one at an end of the
line), or one broken at any places over several lines. -/
inductive Frame where
  | ownLine (m : Message) (ending : LineEnd)
  | records (slot : Option Message) (slots : List (Option Message)) (ending : LineEnd)
  | broken (m : Message) (fragments : List (List Char × LineEnd))
      (flatten : fragments.flatMap Prod.fst = m.text)

namespace Frame

/-- The messages of a frame. -/
def messages : Frame → List Message
  | ownLine m _ => [m]
  | records slot slots _ => (slot :: slots).reduceOption
  | broken m _ _ => [m]

/-- The text of a slot. -/
def slotText (slot : Option Message) : List Char := slot.elim [] (·.text)

/-- The lines of a frame: the texts between the record separators, and the end of the line. -/
def lines : Frame → List (List (List Char) × LineEnd)
  | ownLine m ending => [([m.text], ending)]
  | records slot slots ending => [((slot :: slots).map slotText, ending)]
  | broken _ fragments _ => fragments.map fun f => ([f.1], f.2)

/-- The text of a line. -/
def lineText (line : List (List Char) × LineEnd) : List Char :=
  [recordSeparator].intercalate line.1 ++ line.2.text

/-- The bytes of a frame. -/
def bytes (frame : Frame) : List UInt8 := Utf8.encode (frame.lines.flatMap lineText)

end Frame

/-- Text that `str::trim` leaves nothing of. -/
def Blank (s : List Char) : Prop := ∀ c ∈ s, Text.isWhiteSpace c = true

instance (s : List Char) : Decidable (Blank s) := List.decidableBAll _ s

/-- A message is broken so that a line holds white space of it and nothing else. -/
def Frame.HasBlankFragment : Frame → Prop
  | .ownLine .. | .records .. => False
  | .broken _ fragments _ => ∃ f ∈ fragments, f.1 ≠ [] ∧ Blank f.1

/-- What is to be written for the messages. -/
def messageLines (ms : List Message) : List UInt8 := ms.flatMap fun m => Utf8.encode m.text ++ [10]

/-! ## From lines to chunks -/

variable {s : List Char}

/-- Nothing is left of a blank text, and of no other. -/
theorem trim_eq_nil_iff : Text.trim s = [] ↔ Blank s := by
  unfold Text.trim Blank
  rw [List.reverse_eq_nil_iff, List.dropWhile_eq_nil_iff]
  constructor
  · intro h c hc
    rw [← List.takeWhile_append_dropWhile (p := Text.isWhiteSpace) (l := s)] at hc
    rcases List.mem_append.mp hc with htake | hdrop
    · exact List.mem_takeWhile_imp htake
    · exact h c (List.mem_reverse.mpr hdrop)
  · intro h c hc
    exact h c ((List.dropWhile_suffix _).subset (List.mem_reverse.mp hc))

theorem ne_nil_of_not_blank (h : ¬ Blank s) : s ≠ [] := by
  rintro rfl
  exact h fun c hc => absurd hc List.not_mem_nil

/-- A line end, or none inside a line. -/
theorem LineEnd.text_chars (ending : LineEnd) : ∀ c ∈ ending.text, c = '\r' ∨ c = '\n' := by
  cases ending with
  | lf => simp [LineEnd.text]
  | crlf => simp [LineEnd.text]

variable {e : List Char}

/-- A line ending does not count. -/
theorem blank_append_iff (he : ∀ c ∈ e, c = '\r' ∨ c = '\n') : Blank (s ++ e) ↔ Blank s := by
  have he' : ∀ c ∈ e, Text.isWhiteSpace c = true := by
    intro c hc
    rcases he c hc with rfl | rfl <;> decide
  unfold Blank
  rw [List.forall_mem_append]
  exact and_iff_left he'

theorem notMem_of_noControl (h : Json.NoControl s) {c : Char} (hc : c.toNat < 0x20) : c ∉ s := by
  intro hmem
  have hle := h c hmem
  omega

variable {t : List Char}

/-- A text without control characters is consumed as it is, without the line end after it. -/
theorem consumeRemoteAcpLine_append {parse : List Char → SerdeResult} {pending : List Char}
    (ht : Json.NoControl t) (hne : t ≠ []) (he : ∀ c ∈ e, c = '\r' ∨ c = '\n') :
    consumeRemoteAcpLine parse pending (t ++ e) = consumeChunk parse pending t := by
  have hline : (t ++ e).rdropWhile (fun c => c = '\r' ∨ c = '\n') = t := by
    have hdrop : e.reverse.dropWhile (fun c => decide (c = '\r' ∨ c = '\n')) = [] := by
      rw [List.dropWhile_eq_nil_iff]
      exact fun c hc => decide_eq_true (he c (List.mem_reverse.mp hc))
    have hself : t.rdropWhile (fun c => c = '\r' ∨ c = '\n') = t := by
      rw [List.rdropWhile_eq_self_iff]
      intro hl hlast
      rcases of_decide_eq_true hlast with hcr | hlf
      · exact notMem_of_noControl ht (by decide) (hcr ▸ List.getLast_mem hl)
      · exact notMem_of_noControl ht (by decide) (hlf ▸ List.getLast_mem hl)
    unfold List.rdropWhile at hself ⊢
    rw [List.reverse_append, List.dropWhile_append, hdrop]
    exact hself
  have hchunk : sanitizeRemoteAcpChunk t = t := by
    unfold sanitizeRemoteAcpChunk
    rw [List.filter_eq_self]
    intro c hc
    refine decide_eq_true ⟨?_, ?_⟩
    · rintro rfl
      exact notMem_of_noControl ht (by decide) hc
    · rintro rfl
      exact notMem_of_noControl ht (by decide) hc
  unfold consumeRemoteAcpLine
  dsimp only
  rw [hline, if_neg hne, hchunk, if_neg hne]

variable {slots : List (List Char)}

section

variable (parse : List Char → SerdeResult)

/-- What the writer receives for one chunk, as lines. -/
def feed (st : List Char × List (List Char)) (chunk : List Char) : List Char × List (List Char) :=
  match consumeChunk parse st.1 chunk with
  | (pending, .emit line) => (pending, st.2 ++ [line])
  | (pending, _) => (pending, st.2)

/-- The bytes of the lines that were written. -/
def written (ls : List (List Char)) : List UInt8 := ls.flatMap fun l => Utf8.encode l ++ [10]

/-- The ending of a line is no part of its last segment. -/
theorem processSegment_append (ht : Json.NoControl t) (hne : t ≠ [])
    (he : ∀ c ∈ e, c = '\r' ∨ c = '\n') (pending : List Char) (ls : List (List Char)) :
    processSegment parse (pending, written ls) (t ++ e)
      = ((feed parse (pending, ls) t).1, written (feed parse (pending, ls) t).2) := by
  unfold processSegment feed
  rw [consumeRemoteAcpLine_append ht hne he]
  dsimp only
  generalize consumeChunk parse pending t = result
  obtain ⟨pending', outcome⟩ := result
  cases outcome with
  | emit line => simp [written]
  | pending => rfl
  | dropped => rfl

/-- The chunks of a line: the texts between the separators that are not blank. -/
def chunks (slots : List (List Char)) : List (List Char) := slots.filter fun t => ¬ Blank t

/-- The chunks are fed one after the other. -/
theorem foldl_remoteAcpSegments (hslots : ∀ t ∈ slots, Json.NoControl t)
    (hne : slots ≠ []) (ending : LineEnd) (pending : List Char) (ls : List (List Char)) :
    (remoteAcpSegments (Frame.lineText (slots, ending))).foldl (processSegment parse)
        (pending, written ls)
      = (((chunks slots).foldl (feed parse) (pending, ls)).1,
          written ((chunks slots).foldl (feed parse) (pending, ls)).2) := by
  induction slots generalizing pending ls with
  | nil => exact absurd rfl hne
  | cons t slots ih =>
    obtain ⟨ht, hrest⟩ := List.forall_mem_cons.mp hslots
    have hrs : recordSeparator ∉ t := notMem_of_noControl ht (by decide)
    have hblank : ∀ s : List Char, (Text.trim s ≠ []) = ¬ Blank s := fun s => by
      rw [ne_eq, trim_eq_nil_iff]
    cases slots with
    | nil =>
      -- the last slot of the line carries its end
      have hrs' : recordSeparator ∉ t ++ ending.text := by
        rw [List.mem_append, not_or]
        refine ⟨hrs, fun hmem => ?_⟩
        rcases ending.text_chars _ hmem with h | h <;> exact absurd h (by decide)
      unfold remoteAcpSegments Frame.lineText chunks
      rw [List.intercalate_singleton, List.splitOn_eq_singleton hrs']
      by_cases hb : Blank t
      · have hb' : Blank (t ++ ending.text) := (blank_append_iff ending.text_chars).mpr hb
        simp [hblank, hb, hb']
      · have hb' : ¬ Blank (t ++ ending.text) := fun h =>
          hb ((blank_append_iff ending.text_chars).mp h)
        simp only [List.filter_cons, hblank, hb', hb, not_false_eq_true, decide_true, if_true,
          List.filter_nil, List.foldl_cons, List.foldl_nil]
        exact processSegment_append parse ht (ne_nil_of_not_blank hb) ending.text_chars pending ls
    | cons u slots =>
      have hsplit : (Frame.lineText (t :: u :: slots, ending)).splitOn recordSeparator
          = t :: (Frame.lineText (u :: slots, ending)).splitOn recordSeparator := by
        unfold Frame.lineText
        rw [List.intercalate_cons_cons, List.append_assoc, List.append_assoc,
          List.singleton_append, List.splitOn_append_cons_self_of_not_mem hrs]
      have ih' := ih hrest (List.cons_ne_nil u slots)
      unfold remoteAcpSegments at ih' ⊢
      rw [hsplit]
      by_cases hb : Blank t
      · simpa [chunks, hblank, hb] using ih' pending ls
      · have hseg := processSegment_append parse (e := []) ht (ne_nil_of_not_blank hb)
          (fun c hc => absurd hc List.not_mem_nil) pending ls
        rw [List.append_nil] at hseg
        have hchunks : chunks (t :: u :: slots) = t :: chunks (u :: slots) := by
          simp [chunks, hb]
        rw [List.filter_cons_of_pos (by simp [hblank, hb]), List.foldl_cons, hseg, ih', hchunks,
          List.foldl_cons]

/-- A line is read up to its line feed. -/
theorem readLinesFrom_append {l : List UInt8} (hl : 10 ∉ l) (acc rest : List UInt8) :
    readLinesFrom acc (l ++ 10 :: rest) = (acc.reverse ++ l ++ [10]) :: readLinesFrom [] rest := by
  induction l generalizing acc with
  | nil => simp [readLinesFrom]
  | cons b bs ih =>
    rw [List.mem_cons, not_or] at hl
    rw [List.cons_append, readLinesFrom, if_neg (Ne.symm hl.1), ih hl.2]
    simp

theorem lineFeed_notMem_intercalate
    (hslots : ∀ t ∈ slots, Json.NoControl t) : '\n' ∉ [recordSeparator].intercalate slots := by
  induction slots with
  | nil => exact List.not_mem_nil
  | cons t slots ih =>
    obtain ⟨ht, hrest⟩ := List.forall_mem_cons.mp hslots
    have hlf : '\n' ∉ t := notMem_of_noControl ht (by decide)
    cases slots with
    | nil => rwa [List.intercalate_singleton]
    | cons u slots =>
      rw [List.intercalate_cons_cons, List.mem_append, List.mem_append, not_or, not_or]
      exact ⟨⟨hlf, by decide⟩, ih hrest⟩

/-- The bytes of a line end with its only line feed. -/
theorem encode_lineText (hslots : ∀ t ∈ slots, Json.NoControl t) (ending : LineEnd) :
    ∃ l, 10 ∉ l ∧ Utf8.encode (Frame.lineText (slots, ending)) = l ++ [10] := by
  have hbody := lineFeed_notMem_intercalate hslots
  cases ending with
  | lf =>
    refine ⟨Utf8.encode ([recordSeparator].intercalate slots), ?_, ?_⟩
    · rwa [Utf8.lineFeed_mem_encode]
    · exact Utf8.encode_append _ _
  | crlf =>
    refine ⟨Utf8.encode ([recordSeparator].intercalate slots ++ ['\r']), ?_, ?_⟩
    · rw [Utf8.lineFeed_mem_encode, List.mem_append, not_or]
      exact ⟨hbody, by decide⟩
    · unfold Frame.lineText LineEnd.text
      rw [show ['\r', '\n'] = ['\r'] ++ ['\n'] from rfl, ← List.append_assoc]
      exact Utf8.encode_append _ _

/-- Lines are read back one by one, and their chunks are fed one after the other. -/
theorem foldl_processLine {lines : List (List (List Char) × LineEnd)}
    (hlines : ∀ line ∈ lines, line.1 ≠ [] ∧ ∀ t ∈ line.1, Json.NoControl t)
    (pending : List Char) (ls : List (List Char)) :
    (readLinesFrom [] (Utf8.encode (lines.flatMap Frame.lineText))).foldl (processLine parse)
        (pending, written ls)
      = (((lines.flatMap fun line => chunks line.1).foldl (feed parse) (pending, ls)).1,
          written ((lines.flatMap fun line => chunks line.1).foldl (feed parse) (pending, ls)).2) := by
  induction lines generalizing pending ls with
  | nil => rfl
  | cons line lines ih =>
    obtain ⟨⟨hne, hslots⟩, hrest⟩ := List.forall_mem_cons.mp hlines
    obtain ⟨slots, ending⟩ := line
    obtain ⟨l, hl, hbytes⟩ := encode_lineText hslots ending
    have hline : processLine parse (pending, written ls) (l ++ [10])
        = (((chunks slots).foldl (feed parse) (pending, ls)).1,
            written ((chunks slots).foldl (feed parse) (pending, ls)).2) := by
      rw [processLine, decodeRemoteAcpLine, ← hbytes, Utf8.decode_encode]
      exact foldl_remoteAcpSegments parse hslots hne ending pending ls
    rw [List.flatMap_cons, Utf8.encode_append, hbytes, List.append_assoc, List.singleton_append,
      readLinesFrom_append hl, List.foldl_cons, List.reverse_nil, List.nil_append, hline, ih hrest,
      List.flatMap_cons, List.foldl_append]

end

namespace Frame

/-- A slot holds a message or nothing. -/
theorem noControl_slotText (slot : Option Message) : Json.NoControl (slotText slot) := by
  cases slot with
  | none => exact fun c hc => absurd hc List.not_mem_nil
  | some m => exact m.isCompactObject.1.noControl

/-- A fragment is part of a message. -/
theorem noControl_fragment {m : Message} {fragments : List (List Char × LineEnd)}
    (h : fragments.flatMap Prod.fst = m.text) {f : List Char × LineEnd} (hf : f ∈ fragments) :
    Json.NoControl f.1 := by
  intro c hc
  refine m.isCompactObject.1.noControl c ?_
  rw [← h]
  exact List.mem_flatMap.mpr ⟨f, hf, hc⟩

/-- The lines of a frame have no control characters within. -/
theorem lines_noControl (frame : Frame) :
    ∀ line ∈ frame.lines, line.1 ≠ [] ∧ ∀ t ∈ line.1, Json.NoControl t := by
  intro line hline
  cases frame with
  | ownLine m ending =>
    rw [lines, List.mem_singleton] at hline
    subst hline
    exact ⟨List.cons_ne_nil _ _, fun t ht =>
      List.mem_singleton.mp ht ▸ m.isCompactObject.1.noControl⟩
  | records slot slots ending =>
    rw [lines, List.mem_singleton] at hline
    subst hline
    refine ⟨List.cons_ne_nil _ _, fun t ht => ?_⟩
    obtain ⟨sl, -, rfl⟩ := List.mem_map.mp ht
    exact noControl_slotText sl
  | broken m fragments h =>
    obtain ⟨f, hf, rfl⟩ := List.mem_map.mp hline
    exact ⟨List.cons_ne_nil _ _, fun t ht =>
      List.mem_singleton.mp ht ▸ noControl_fragment h hf⟩

/-- The chunks of a frame. -/
def allChunks (frame : Frame) : List (List Char) := frame.lines.flatMap fun line => chunks line.1

end Frame

/-- The function writes what feeding the chunks of the frames yields. -/
theorem normalizeRemoteAcpStdout_frames (parse : List Char → SerdeResult) (frames : List Frame) :
    normalizeRemoteAcpStdout parse (frames.flatMap Frame.bytes)
      = written ((frames.flatMap Frame.allChunks).foldl (feed parse) ([], [])).2 := by
  have hbytes : frames.flatMap Frame.bytes
      = Utf8.encode ((frames.flatMap Frame.lines).flatMap Frame.lineText) := by
    rw [Utf8.encode, List.flatMap_assoc, List.flatMap_assoc]
    congr 1
    funext frame
    rw [Frame.bytes, Utf8.encode, List.flatMap_assoc]
  have hchunks : frames.flatMap Frame.allChunks
      = (frames.flatMap Frame.lines).flatMap fun line => chunks line.1 := by
    rw [List.flatMap_assoc]
    rfl
  have hlines : ∀ line ∈ frames.flatMap Frame.lines,
      line.1 ≠ [] ∧ ∀ t ∈ line.1, Json.NoControl t := by
    intro line hline
    obtain ⟨frame, -, hmem⟩ := List.mem_flatMap.mp hline
    exact frame.lines_noControl line hmem
  rw [normalizeRemoteAcpStdout, hbytes, hchunks]
  exact congrArg Prod.snd (foldl_processLine parse hlines [] [])

/-! ## Nothing is lost without blank fragments -/

/-- The assumption on which the framing rests: the parser goes by the grammar. It accepts exactly JSON, and reports the end
of the input exactly on the strict prefixes of JSON texts among the rest. -/
structure IsSerde (parse : List Char → SerdeResult) : Prop where
  ok_iff : ∀ s, parse s = .ok ↔ Json.IsJson s
  eof_iff : ∀ s, parse s = .eof ↔ ¬ Json.IsJson s ∧ ∃ t ≠ [], Json.IsJson (s ++ t)

/-- A message has at least its braces. -/
theorem Message.not_blank (m : Message) : ¬ Blank m.text := by
  intro h
  exact absurd (h '{' (List.mem_of_head? m.isCompactObject.2)) (by decide)

theorem Message.ne_nil (m : Message) : m.text ≠ [] := ne_nil_of_not_blank m.not_blank

/-- Empty slots give no chunk. -/
theorem chunks_slots (slots : List (Option Message)) :
    chunks (slots.map Frame.slotText) = slots.reduceOption.map (·.text) := by
  induction slots with
  | nil => rfl
  | cons slot slots ih =>
    unfold chunks at ih ⊢
    cases slot with
    | none =>
      have hblank : Blank (Frame.slotText none) := fun c hc => absurd hc List.not_mem_nil
      rw [List.map_cons, List.filter_cons_of_neg (by simp [hblank]), ih,
        List.reduceOption_cons_of_none]
    | some m =>
      have hblank : ¬ Blank (Frame.slotText (some m)) := m.not_blank
      rw [List.map_cons, List.filter_cons_of_pos (by simp [hblank]), ih,
        List.reduceOption_cons_of_some, List.map_cons]
      rfl

theorem allChunks_ownLine (m : Message) (ending : LineEnd) :
    (Frame.ownLine m ending).allChunks = [m].map (·.text) :=
  (List.append_nil _).trans (chunks_slots [some m])

theorem allChunks_records (slot : Option Message) (slots : List (Option Message))
    (ending : LineEnd) :
    (Frame.records slot slots ending).allChunks = (slot :: slots).reduceOption.map (·.text) :=
  (List.append_nil _).trans (chunks_slots (slot :: slots))

theorem allChunks_broken {m : Message} {fragments : List (List Char × LineEnd)}
    (h : fragments.flatMap Prod.fst = m.text) :
    (Frame.broken m fragments h).allChunks = chunks (fragments.map Prod.fst) := by
  change (fragments.map fun f => ([f.1], f.2)).flatMap (fun line => chunks line.1) = _
  clear h
  induction fragments with
  | nil => rfl
  | cons f fragments ih =>
    rw [List.map_cons, List.flatMap_cons, ih, List.map_cons]
    unfold chunks
    rw [← List.filter_append, List.singleton_append]

variable {pieces : List (List Char)}

/-- Leaving out empty pieces changes nothing. -/
theorem flatten_chunks (h : ∀ t ∈ pieces, Blank t → t = []) : (chunks pieces).flatten = pieces.flatten := by
  induction pieces with
  | nil => rfl
  | cons t pieces ih =>
    obtain ⟨ht, hrest⟩ := List.forall_mem_cons.mp h
    unfold chunks at ih ⊢
    by_cases hb : Blank t
    · rw [List.filter_cons_of_neg (by simp [hb]), ih hrest, ht hb, List.flatten_cons,
        List.nil_append]
    · rw [List.filter_cons_of_pos (by simp [hb]), List.flatten_cons, ih hrest, List.flatten_cons]

/-- No chunk is empty. -/
theorem ne_nil_of_mem_chunks : ∀ t ∈ chunks pieces, t ≠ [] := by
  intro t ht
  exact ne_nil_of_not_blank (of_decide_eq_true (List.mem_filter.mp ht).2)

section

variable {parse : List Char → SerdeResult} (hserde : IsSerde parse)

include hserde

/-- A message that arrives in pieces is emitted with its last piece. The induction is on the pieces
that are to come; what is pending is what came before. -/
theorem foldl_feed_message (m : Message) (hpieces : ∀ t ∈ pieces, t ≠ [])
    (hne : pieces ≠ []) {pending : List Char} (hm : pending ++ pieces.flatten = m.text)
    (ls : List (List Char)) :
    pieces.foldl (feed parse) (pending, ls) = ([], ls ++ [m.text]) := by
  -- on the pieces: what is pending is the part of the message that has come
  induction pieces generalizing pending with
  | nil => exact absurd rfl hne
  | cons t pieces ih =>
    obtain ⟨ht, hrest⟩ := List.forall_mem_cons.mp hpieces
    rw [List.flatten_cons, ← List.append_assoc] at hm
    rw [List.foldl_cons]
    by_cases hlast : pieces = []
    · subst hlast
      rw [List.flatten_nil, List.append_nil] at hm
      have hok : parse (pending ++ t) = .ok := by
        rw [hserde.ok_iff, hm]
        exact m.isCompactObject.isJson
      simp only [feed, consumeChunk, hok, List.foldl_nil]
      rw [hm]
    · have hmore : pieces.flatten ≠ [] := by
        obtain ⟨u, us, rfl⟩ := List.exists_cons_of_ne_nil hlast
        rw [List.flatten_cons]
        exact List.append_ne_nil_of_left_ne_nil (hrest u List.mem_cons_self) _
      -- a compact object is no JSON before its last brace, so the parser asks for more
      have hcompact : Json.IsCompactObject (pending ++ t ++ pieces.flatten) :=
        hm ▸ m.isCompactObject
      have heof : parse (pending ++ t) = .eof := by
        rw [hserde.eof_iff]
        refine ⟨hcompact.prefix_not_isJson ?_ hmore, pieces.flatten, hmore, hcompact.isJson⟩
        exact List.append_ne_nil_of_right_ne_nil _ ht
      have hshort : ¬ REMOTE_ACP_MAX_PENDING_LINE_BYTES < (Utf8.encode (pending ++ t)).length := by
        have hlen := m.length_le
        rw [← hm, Utf8.encode_append, List.length_append] at hlen
        omega
      have hfeed : feed parse (pending, ls) t = (pending ++ t, ls) := by
        simp only [feed, consumeChunk, heof, keepPending, if_neg hshort]
      rw [hfeed]
      exact ih hrest hlast hm

/-- Messages that come in one piece each. -/
theorem foldl_feed_messages (ms : List Message) (ls : List (List Char)) :
    (ms.map (·.text)).foldl (feed parse) ([], ls) = ([], ls ++ ms.map (·.text)) := by
  induction ms generalizing ls with
  | nil => simp
  | cons m ms ih =>
    have hfeed : [m.text].foldl (feed parse) ([], ls) = ([], ls ++ [m.text]) :=
      foldl_feed_message hserde m (by simpa using m.ne_nil) (List.cons_ne_nil _ _) (by simp) ls
    rw [List.foldl_cons, List.foldl_nil] at hfeed
    rw [List.map_cons, List.foldl_cons, hfeed, ih]
    simp

/-- The messages of a frame without blank fragments are emitted, and nothing is left pending. -/
theorem foldl_feed_frame (frame : Frame) (h : ¬ frame.HasBlankFragment) (ls : List (List Char)) :
    frame.allChunks.foldl (feed parse) ([], ls) = ([], ls ++ frame.messages.map (·.text)) := by
  cases frame with
  | ownLine m ending =>
    rw [allChunks_ownLine]
    exact foldl_feed_messages hserde [m] ls
  | records slot slots ending =>
    rw [allChunks_records]
    exact foldl_feed_messages hserde _ ls
  | broken m fragments hm =>
    have hempty : ∀ t ∈ fragments.map Prod.fst, Blank t → t = [] := by
      intro t ht hblank
      by_contra hne
      obtain ⟨f, hf, rfl⟩ := List.mem_map.mp ht
      exact h ⟨f, hf, hne, hblank⟩
    have hflatten : (chunks (fragments.map Prod.fst)).flatten = m.text := by
      rw [flatten_chunks hempty, ← hm, List.flatMap_def]
    have hne : chunks (fragments.map Prod.fst) ≠ [] := by
      intro hnil
      rw [hnil] at hflatten
      exact m.ne_nil hflatten.symm
    rw [allChunks_broken]
    exact foldl_feed_message hserde m ne_nil_of_mem_chunks hne hflatten ls

/-- Frame after frame, nothing is left pending. -/
theorem foldl_feed_frames (frames : List Frame) (h : ∀ frame ∈ frames, ¬ frame.HasBlankFragment)
    (ls : List (List Char)) :
    (frames.flatMap Frame.allChunks).foldl (feed parse) ([], ls)
      = ([], ls ++ (frames.flatMap Frame.messages).map (·.text)) := by
  induction frames generalizing ls with
  | nil => simp
  | cons frame frames ih =>
    obtain ⟨hframe, hrest⟩ := List.forall_mem_cons.mp h
    rw [List.flatMap_cons, List.foldl_append, foldl_feed_frame hserde frame hframe, ih hrest,
      List.flatMap_cons, List.map_append, List.append_assoc]

end

/-! ## A blank fragment is lost -/

/-- The bytes of a text other than line feeds. -/
def weight (s : List Char) : ℕ := (Utf8.encode s).countP (· ≠ 10)

theorem weight_append (s t : List Char) : weight (s ++ t) = weight s + weight t := by
  rw [weight, Utf8.encode_append, List.countP_append]
  rfl

/-- A text that is not empty has a weight. -/
theorem weight_pos (hne : s ≠ []) (hlf : '\n' ∉ s) : 0 < weight s := by
  rw [← Utf8.lineFeed_mem_encode] at hlf
  obtain ⟨b, hb⟩ := List.exists_mem_of_ne_nil (Utf8.encode s) (Utf8.encode_ne_nil hne)
  refine List.countP_pos_iff.mpr ⟨b, hb, ?_⟩
  refine decide_eq_true ?_
  rintro rfl
  exact hlf hb

theorem weight_flatten (ls : List (List Char)) : weight ls.flatten = (ls.map weight).sum := by
  induction ls with
  | nil => rfl
  | cons l ls ih => rw [List.flatten_cons, weight_append, ih, List.map_cons, List.sum_cons]

theorem countP_written (ls : List (List Char)) :
    (written ls).countP (· ≠ 10) = (ls.map weight).sum := by
  induction ls with
  | nil => rfl
  | cons l ls ih =>
    rw [written, List.flatMap_cons, List.countP_append, List.countP_append, List.map_cons,
      List.sum_cons, ← ih]
    rfl

section

variable (parse : List Char → SerdeResult)

/-- Whatever the parser says, what is emitted and what stays pending comes from the pending text and
the chunk. -/
theorem weight_consumeChunk (pending chunk : List Char) :
    (consumeChunk parse pending chunk = ([], .dropped)) ∨
    ∃ t, weight t ≤ weight pending + weight chunk ∧
      (consumeChunk parse pending chunk = ([], .emit t) ∨
        consumeChunk parse pending chunk = (t, .pending)) := by
  have hboth : weight (pending ++ chunk) ≤ weight pending + weight chunk :=
    (weight_append pending chunk).le
  have hchunk : weight chunk ≤ weight pending + weight chunk := by omega
  have hkeep : ∀ t, keepPending t = ([], .dropped) ∨ keepPending t = (t, .pending) := by
    intro t
    unfold keepPending
    split
    · exact .inl rfl
    · exact .inr rfl
  unfold consumeChunk
  split
  · exact .inr ⟨_, hboth, .inl rfl⟩
  · exact (hkeep (pending ++ chunk)).imp_right fun h => ⟨_, hboth, .inr h⟩
  · split
    · exact .inr ⟨_, hchunk, .inl rfl⟩
    · exact (hkeep chunk).imp_right fun h => ⟨_, hchunk, .inr h⟩
    · exact .inl rfl

/-- A chunk adds at most its own weight to what is written and pending. -/
theorem weight_feed (st : List Char × List (List Char)) (chunk : List Char) :
    weight (feed parse st chunk).1 + ((feed parse st chunk).2.map weight).sum
      ≤ weight st.1 + (st.2.map weight).sum + weight chunk := by
  have hnil : weight [] = 0 := rfl
  unfold feed
  rcases weight_consumeChunk parse st.1 chunk with hdrop | ⟨t, ht, hemit | hpending⟩
  · rw [hdrop]
    dsimp only
    omega
  · rw [hemit]
    simp only [List.map_append, List.map_cons, List.map_nil, List.sum_append, List.sum_cons,
      List.sum_nil]
    omega
  · rw [hpending]
    dsimp only
    omega

/-- Nothing is written that was not read. -/
theorem weight_foldl_feed (cs : List (List Char)) (st : List Char × List (List Char)) :
    weight (cs.foldl (feed parse) st).1 + ((cs.foldl (feed parse) st).2.map weight).sum
      ≤ weight st.1 + (st.2.map weight).sum + (cs.map weight).sum := by
  induction cs generalizing st with
  | nil => simp
  | cons c cs ih =>
    have hfeed := weight_feed parse st c
    have hrest := ih (feed parse st c)
    rw [List.foldl_cons, List.map_cons, List.sum_cons]
    omega

end

/-- Leaving out blank pieces loses their weight. -/
theorem sum_weight_chunks (pieces : List (List Char)) :
    ((chunks pieces).map weight).sum ≤ (pieces.map weight).sum ∧
      ((∃ t ∈ pieces, Blank t ∧ 0 < weight t) →
        ((chunks pieces).map weight).sum < (pieces.map weight).sum) := by
  induction pieces with
  | nil => exact ⟨le_rfl, fun ⟨t, ht, _⟩ => absurd ht List.not_mem_nil⟩
  | cons t pieces ih =>
    obtain ⟨hle, hlt⟩ := ih
    have hcons : ((t :: pieces).map weight).sum = weight t + (pieces.map weight).sum := by
      rw [List.map_cons, List.sum_cons]
    by_cases hb : Blank t
    · have hchunks : chunks (t :: pieces) = chunks pieces := by simp [chunks, hb]
      rw [hchunks, hcons]
      refine ⟨by omega, ?_⟩
      rintro ⟨u, hu, hblank, hpos⟩
      rcases List.mem_cons.mp hu with rfl | hu
      · omega
      · have hstrict := hlt ⟨u, hu, hblank, hpos⟩
        omega
    · have hchunks : chunks (t :: pieces) = t :: chunks pieces := by simp [chunks, hb]
      rw [hchunks, hcons, List.map_cons, List.sum_cons]
      refine ⟨by omega, ?_⟩
      rintro ⟨u, hu, hblank, hpos⟩
      rcases List.mem_cons.mp hu with rfl | hu
      · exact absurd hblank hb
      · have hstrict := hlt ⟨u, hu, hblank, hpos⟩
        omega

/-- The chunks of a frame weigh less than its messages if a fragment is blank. -/
theorem sum_weight_allChunks (frame : Frame) :
    (frame.allChunks.map weight).sum ≤ (frame.messages.map fun m => weight m.text).sum ∧
      (frame.HasBlankFragment →
        (frame.allChunks.map weight).sum < (frame.messages.map fun m => weight m.text).sum) := by
  cases frame with
  | ownLine m ending =>
    rw [allChunks_ownLine, List.map_map]
    exact ⟨le_rfl, fun h => absurd h id⟩
  | records slot slots ending =>
    rw [allChunks_records, List.map_map]
    exact ⟨le_rfl, fun h => absurd h id⟩
  | broken m fragments hm =>
    have htotal : ((fragments.map Prod.fst).map weight).sum
        = ([m].map fun m => weight m.text).sum := by
      rw [← weight_flatten, ← List.flatMap_def, hm]
      simp
    obtain ⟨hle, hlt⟩ := sum_weight_chunks (fragments.map Prod.fst)
    rw [allChunks_broken]
    refine ⟨hle.trans_eq htotal, ?_⟩
    rintro ⟨f, hf, hne, hblank⟩
    refine (hlt ⟨f.1, List.mem_map_of_mem hf, hblank, weight_pos hne ?_⟩).trans_eq htotal
    exact notMem_of_noControl (Frame.noControl_fragment hm hf) (by decide)

/-- A blank fragment makes the frames lighter than their messages. -/
theorem sum_weight_frames (frames : List Frame) :
    ((frames.flatMap Frame.allChunks).map weight).sum
        ≤ ((frames.flatMap Frame.messages).map fun m => weight m.text).sum ∧
      ((∃ frame ∈ frames, frame.HasBlankFragment) →
        ((frames.flatMap Frame.allChunks).map weight).sum
          < ((frames.flatMap Frame.messages).map fun m => weight m.text).sum) := by
  induction frames with
  | nil => exact ⟨le_rfl, fun ⟨frame, hframe, _⟩ => absurd hframe List.not_mem_nil⟩
  | cons frame frames ih =>
    obtain ⟨hle, hlt⟩ := ih
    obtain ⟨hle', hlt'⟩ := sum_weight_allChunks frame
    simp only [List.flatMap_cons, List.map_append, List.sum_append]
    refine ⟨by omega, ?_⟩
    rintro ⟨u, hu, hblank⟩
    rcases List.mem_cons.mp hu with rfl | hu
    · have hstrict := hlt' hblank
      omega
    · have hstrict := hlt ⟨u, hu, hblank⟩
      omega

theorem messageLines_eq (ms : List Message) : messageLines ms = written (ms.map (·.text)) := by
  rw [messageLines, written, List.flatMap_map]

/-- The output of a run with a blank fragment has fewer bytes than the messages. -/
theorem normalize_ne_of_blank (parse : List Char → SerdeResult) {frames : List Frame}
    (h : ∃ frame ∈ frames, frame.HasBlankFragment) :
    normalizeRemoteAcpStdout parse (frames.flatMap Frame.bytes)
      ≠ messageLines (frames.flatMap Frame.messages) := by
  intro heq
  have hcount := congrArg (List.countP (· ≠ 10)) heq
  rw [normalizeRemoteAcpStdout_frames, messageLines_eq, countP_written, countP_written,
    List.map_map] at hcount
  have hfed := weight_foldl_feed parse (frames.flatMap Frame.allChunks) ([], [])
  have hlt := (sum_weight_frames frames).2 h
  have hnil : weight [] = 0 := rfl
  simp only [List.map_nil, List.sum_nil, Function.comp_def] at hcount hfed
  omega

/-- Remote framing loses nothing exactly when no line holds white space of a broken message and
nothing else. -/
theorem normalizeRemoteAcpStdout_eq_messages_iff (parse : List Char → SerdeResult)
    (hserde : IsSerde parse) (frames : List Frame) :
    normalizeRemoteAcpStdout parse (frames.flatMap Frame.bytes)
        = messageLines (frames.flatMap Frame.messages) ↔
      ∀ frame ∈ frames, ¬ frame.HasBlankFragment := by
  constructor
  · intro heq frame hframe hblank
    exact normalize_ne_of_blank parse ⟨frame, hframe, hblank⟩ heq
  · intro h
    rw [normalizeRemoteAcpStdout_frames, foldl_feed_frames hserde frames h, messageLines_eq]
    rfl

open Classical in
/-- A parser that decides by the grammar. -/
noncomputable def grammarParser (s : List Char) : SerdeResult :=
  if Json.IsJson s then .ok else if ∃ t ≠ [], Json.IsJson (s ++ t) then .eof else .other

theorem isSerde_grammarParser : IsSerde grammarParser where
  ok_iff s := by
    unfold grammarParser
    split
    · simpa
    · split <;> simpa
  eof_iff s := by
    unfold grammarParser
    split
    · rename_i hjson
      exact ⟨fun h => SerdeResult.noConfusion h, fun h => absurd hjson h.1⟩
    · rename_i hjson
      split
      · rename_i hpre
        exact ⟨fun _ => ⟨hjson, hpre⟩, fun _ => rfl⟩
      · rename_i hpre
        exact ⟨fun h => SerdeResult.noConfusion h, fun h => absurd h.2 hpre⟩

/-- The object whose only member `a` is the string with these characters. -/
def sampleText (t : List Char) : List Char := ['{', '"', 'a', '"', ':', '"'] ++ t ++ ['"', '}']

theorem sampleText_isCompactObject (ht : Json.IsChars t) : Json.IsCompactObject (sampleText t) := by
  have hkey : Json.IsString ['"', 'a', '"'] :=
    ⟨['a'], .unescaped (by decide) (by decide) (by decide) .nil, rfl⟩
  have hvalue : Json.Derives Json.NoWs .value ('"' :: (t ++ ['"'])) := .string ⟨t, ht, rfl⟩
  have hnil : Json.NoWs [] := rfl
  have hobject := Json.Derives.object (.member hnil hkey hnil hnil hvalue hnil)
  refine ⟨?_, rfl⟩
  simpa [sampleText] using hobject

/-- A message with a space in a string. -/
def spaced : Message where
  text := sampleText ['x', ' ', 'y']
  isCompactObject := sampleText_isCompactObject <|
    .unescaped (by decide) (by decide) (by decide) <|
    .unescaped (by decide) (by decide) (by decide) <|
    .unescaped (by decide) (by decide) (by decide) .nil
  length_le := by decide

/-- The same message without the space. -/
def unspaced : Message where
  text := sampleText ['x', 'y']
  isCompactObject := sampleText_isCompactObject <|
    .unescaped (by decide) (by decide) (by decide) <|
    .unescaped (by decide) (by decide) (by decide) .nil
  length_le := by decide

/-- The message is broken before and after the space. -/
def brokenAroundSpace : Frame :=
  .broken spaced [(['{', '"', 'a', '"', ':', '"', 'x'], .lf), ([' '], .lf), (['y', '"', '}'], .crlf)]
    rfl

/-- The message is broken after the space. -/
def brokenAfterSpace : Frame :=
  .broken spaced [(['{', '"', 'a', '"', ':', '"', 'x', ' '], .lf), (['y', '"', '}'], .crlf)] rfl

theorem brokenAfterSpace_normalizes :
    normalizeRemoteAcpStdout grammarParser
        ([brokenAfterSpace, .records none [some spaced, some unspaced] .lf].flatMap Frame.bytes)
      = messageLines [spaced, spaced, unspaced] := by
  refine (normalizeRemoteAcpStdout_eq_messages_iff grammarParser isSerde_grammarParser
    [brokenAfterSpace, .records none [some spaced, some unspaced] .lf]).mpr ?_
  intro frame hframe hblank
  rcases List.mem_pair.mp hframe with rfl | rfl
  · obtain ⟨f, hf, -, hblank⟩ := hblank
    rcases List.mem_pair.mp hf with rfl | rfl
    · exact absurd hblank (by decide)
    · exact absurd hblank (by decide)
  · exact hblank

/-- The line that holds only the space is dropped, and another message is written. -/
theorem brokenAroundSpace_loses_space :
    normalizeRemoteAcpStdout grammarParser ([brokenAroundSpace].flatMap Frame.bytes)
        = messageLines [unspaced] ∧
      messageLines [unspaced] ≠ messageLines ([brokenAroundSpace].flatMap Frame.messages) := by
  refine ⟨?_, by decide⟩
  have hchunks : [brokenAroundSpace].flatMap Frame.allChunks
      = [['{', '"', 'a', '"', ':', '"', 'x'], ['y', '"', '}']] := by decide
  have hpieces : ∀ t ∈ [['{', '"', 'a', '"', ':', '"', 'x'], ['y', '"', '}']], t ≠ [] := by decide
  rw [normalizeRemoteAcpStdout_frames, hchunks,
    foldl_feed_message isSerde_grammarParser unspaced hpieces (List.cons_ne_nil _ _) rfl]
  rfl

end Builderbot.AcpClient
