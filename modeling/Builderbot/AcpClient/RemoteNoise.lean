import Builderbot.AcpClient.RemoteStdout
import Builderbot.Lib.Transducer

/-!
# Noise on remote stdout

`consume_remote_acp_line` of `crates/acp-client/src/driver.rs` on lines of which some are messages and the others are no
JSON. A line may be a piece of a message, so text that could be the beginning of one is kept and the next line is put
after it; the line is tried alone when the two cannot be a beginning any more.

Of the parser only this is assumed, that what it accepts is JSON. `consumeLines_spec` says which messages come through:
those that it accepts, but for the ones that are taken for such a continuation.
-/

namespace Builderbot.AcpClient

open Lib Lib.Transducer

/-- A line: a message with the end of the line, or noise. -/
inductive RemoteLine where
  | object (text ending : List Char) (compact : Json.IsCompactObject text) (ending_ok : ∀ c ∈ ending, c = '\r' ∨ c = '\n')
  | noise (text : List Char) (not_json : ¬ Json.IsJson text)

def RemoteLine.raw : RemoteLine → List Char
  | .object text ending _ _ => text ++ ending
  | .noise text _ => text

def RemoteLineOutcome.emitted : RemoteLineOutcome → List (List Char)
  | .emit line => [line]
  | .pending | .dropped => []

section

variable (parse : List Char → SerdeResult)

/-- One line: the new value of `pending`, and what is emitted. -/
def consumeLine (pending : List Char) (line : RemoteLine) : List Char × List (List Char) :=
  let r := consumeRemoteAcpLine parse pending line.raw
  (r.1, r.2.emitted)

def consumeLines (pending : List Char) (lines : List RemoteLine) : List Char × List (List Char) :=
  transduce (consumeLine parse) pending lines

/-! ## What has to come through -/

/-- The object is taken for a part of a longer text that the pending text begins. -/
def Absorbed (pending object : List Char) : Prop := parse (pending ++ object) = .eof

open Classical in
/-- What is to be emitted for a line: an object that the parser accepts, unless it is absorbed; behind the white space that
was pending, if the parser accepts both together. -/
noncomputable def RemoteLine.due (pending : List Char) : RemoteLine → List (List Char)
  | .object text _ _ _ =>
    if parse text = .ok ∧ ¬ Absorbed parse pending text then
      [(if Json.Ws pending ∧ parse (pending ++ text) = .ok then pending else []) ++ text]
    else []
  | .noise _ _ => []

/-- What is to be emitted for the lines. -/
noncomputable def due (pending : List Char) : List RemoteLine → List (List Char)
  | [] => []
  | line :: lines => line.due parse pending ++ due (consumeLine parse pending line).1 lines

end

/-! ## One line -/

section

variable {parse : List Char → SerdeResult}

theorem length_keepPending (pending : List Char) :
    (Utf8.encode (keepPending pending).1).length ≤ REMOTE_ACP_MAX_PENDING_LINE_BYTES := by
  unfold keepPending
  split
  · exact Nat.zero_le _
  · rename_i h
    exact Nat.le_of_not_lt h

theorem consumeChunk_of_eof {pending chunk : List Char} (h : parse (pending ++ chunk) = .eof) :
    consumeChunk parse pending chunk = keepPending (pending ++ chunk) := by
  rw [consumeChunk, h]

theorem emitted_keepPending (pending : List Char) : (keepPending pending).2.emitted = [] := by
  unfold keepPending
  split
  · rfl
  · rfl

/-- What is pending after a line is not too long. -/
theorem length_consumeLine {pending : List Char} (h : (Utf8.encode pending).length ≤ REMOTE_ACP_MAX_PENDING_LINE_BYTES)
    (line : RemoteLine) :
    (Utf8.encode (consumeLine parse pending line).1).length ≤ REMOTE_ACP_MAX_PENDING_LINE_BYTES := by
  unfold consumeLine consumeRemoteAcpLine
  dsimp only
  split
  · exact h
  split
  · exact h
  unfold consumeChunk
  split
  · exact Nat.zero_le _
  · exact length_keepPending _
  · split
    · exact Nat.zero_le _
    · exact length_keepPending _
    · exact Nat.zero_le _

/-- What is emitted for a line was accepted by the parser. -/
theorem parse_of_mem_consumeLine {pending l : List Char} {line : RemoteLine} (h : l ∈ (consumeLine parse pending line).2) :
    parse l = .ok := by
  unfold consumeLine consumeRemoteAcpLine at h
  dsimp only at h
  split at h
  · exact absurd h List.not_mem_nil
  split at h
  · exact absurd h List.not_mem_nil
  unfold consumeChunk at h
  split at h
  · rename_i hok
    rwa [List.mem_singleton.mp h]
  · rw [emitted_keepPending] at h
    exact absurd h List.not_mem_nil
  · split at h
    · rename_i hok
      rwa [List.mem_singleton.mp h]
    · rw [emitted_keepPending] at h
      exact absurd h List.not_mem_nil
    · exact absurd h List.not_mem_nil

/-- What is due for an object is emitted. The parser's answer to both texts together decides; the recovery tries the object
alone. -/
theorem consumeLine_object (hsound : ∀ s, parse s = .ok → Json.IsJson s) {pending text ending : List Char}
    (compact : Json.IsCompactObject text) (ending_ok : ∀ c ∈ ending, c = '\r' ∨ c = '\n') (hok : parse text = .ok)
    (h : ¬ Absorbed parse pending text) :
    (consumeLine parse pending (.object text ending compact ending_ok)).2 =
      (RemoteLine.object text ending compact ending_ok).due parse pending := by
  have hne : text ≠ [] := by
    rintro rfl
    exact absurd compact.2 (by decide)
  rw [RemoteLine.due, if_pos ⟨hok, h⟩, consumeLine, RemoteLine.raw,
    consumeRemoteAcpLine_append compact.1.noControl hne ending_ok]
  unfold consumeChunk
  cases hboth : parse (pending ++ text) with
  | ok =>
    -- a JSON text that ends with a whole object has only white space before it
    have hws := compact.ws_of_isJson_append (hsound _ hboth)
    rw [if_pos ⟨hws, rfl⟩]
    rfl
  | eof => exact absurd hboth h
  | other =>
    rw [if_neg fun hws => SerdeResult.noConfusion hws.2, hok]
    rfl

theorem due_sublist_consumeLine (hsound : ∀ s, parse s = .ok → Json.IsJson s) (pending : List Char) (line : RemoteLine) :
    (line.due parse pending).Sublist (consumeLine parse pending line).2 := by
  cases line with
  | noise text => exact List.nil_sublist _
  | object text ending compact ending_ok =>
    by_cases h : parse text = .ok ∧ ¬ Absorbed parse pending text
    · rw [consumeLine_object hsound compact ending_ok h.1 h.2]
    · rw [RemoteLine.due, if_neg h]
      exact List.nil_sublist _

/-! ## All lines -/

theorem due_sublist_consumeLines (hsound : ∀ s, parse s = .ok → Json.IsJson s) (lines : List RemoteLine)
    (pending : List Char) :
    (due parse pending lines).Sublist (consumeLines parse pending lines).2 := by
  induction lines generalizing pending with
  | nil => exact List.nil_sublist _
  | cons line lines ih => exact (due_sublist_consumeLine hsound pending line).append (ih _)

theorem length_consumeLines {pending : List Char} (h : (Utf8.encode pending).length ≤ REMOTE_ACP_MAX_PENDING_LINE_BYTES)
    (lines : List RemoteLine) :
    (Utf8.encode (consumeLines parse pending lines).1).length ≤ REMOTE_ACP_MAX_PENDING_LINE_BYTES := by
  induction lines generalizing pending with
  | nil => exact h
  | cons line lines ih => exact ih (length_consumeLine h line)

theorem parse_of_mem_consumeLines {pending l : List Char} {lines : List RemoteLine}
    (h : l ∈ (consumeLines parse pending lines).2) : parse l = .ok := by
  induction lines generalizing pending with
  | nil => exact absurd h List.not_mem_nil
  | cons line lines ih =>
    rcases List.mem_append.mp h with hline | hlines
    · exact parse_of_mem_consumeLine hline
    · exact ih hlines

/-- Whatever the noise, every object that the parser accepts is emitted in its turn unless it is absorbed, the pending text
stays short, and only JSON is emitted. -/
theorem consumeLines_spec (parse : List Char → SerdeResult) (hsound : ∀ s, parse s = .ok → Json.IsJson s)
    (lines : List RemoteLine) :
    (due parse [] lines).Sublist (consumeLines parse [] lines).2 ∧
      (∀ pre, pre <+: lines →
        (Utf8.encode (consumeLines parse [] pre).1).length ≤ REMOTE_ACP_MAX_PENDING_LINE_BYTES) ∧
      ∀ l ∈ (consumeLines parse [] lines).2, Json.IsJson l :=
  ⟨due_sublist_consumeLines hsound lines [], fun pre _ => length_consumeLines (Nat.zero_le _) pre,
    fun l hl => hsound l (parse_of_mem_consumeLines hl)⟩

end

/-! ## An opening bracket, and a surrogate without its pair -/

theorem isCompactObject_empty : Json.IsCompactObject ['{', '}'] := by
  have hnil : Json.NoWs [] := rfl
  exact ⟨.emptyObject hnil, rfl⟩

/-- A text in which a bracket is left open is no JSON. -/
theorem not_isJson_of_scanAll {s : List Char} (h : ∀ st, Json.scanAll (0, .outside) s = some st → st.1 ≠ 0) :
    ¬ Json.IsJson s := by
  rintro ⟨w, v, w', hw, hv, hw', rfl⟩
  exact h _ (((hw.neutral.append hv.neutral).append hw'.neutral) 0) rfl

/-- A line with an opening bracket. -/
def openBracket : RemoteLine := .noise ['['] (not_isJson_of_scanAll (by decide))

def emptyObjectLine : RemoteLine := .object ['{', '}'] ['\n'] isCompactObject_empty (List.forall_mem_singleton.mpr (by decide))

theorem emptyObjectLine_due :
    [['{', '}']].Sublist (consumeLines grammarParser [] [emptyObjectLine, openBracket]).2 := by
  have hspec := consumeLines_spec grammarParser (fun s => (isSerde_grammarParser.ok_iff s).mp) [emptyObjectLine, openBracket]
  have hok : grammarParser ['{', '}'] = .ok := (isSerde_grammarParser.ok_iff _).mpr isCompactObject_empty.isJson
  have hnot : ¬ Absorbed grammarParser [] ['{', '}'] := fun h => SerdeResult.noConfusion (hok.symm.trans h)
  have hdue : due grammarParser [] [emptyObjectLine, openBracket] = [['{', '}']] := by
    simp [due, RemoteLine.due, emptyObjectLine, openBracket, hok, hnot]
  rw [← hdue]
  exact hspec.1

/-- An array with the empty object. -/
theorem isJson_array : Json.IsJson ['[', '{', '}', ']'] := by
  have hnil : Json.Ws [] := fun c hc => absurd hc List.not_mem_nil
  have hobject : Json.Derives Json.Ws .value ['{', '}'] := .emptyObject hnil
  have harray : Json.Derives Json.Ws .value ['[', '{', '}', ']'] := .array (.element hnil hobject hnil)
  exact ⟨[], _, [], hnil, harray, hnil, rfl⟩

/-- The escape of a surrogate that has no other half: a string of the grammar, but of no text. -/
def loneSurrogate : List Char := ['\\', 'u', 'd', '8', '3', 'd']

theorem isChars_loneSurrogate : Json.IsChars loneSurrogate := by
  have hlength : ['d', '8', '3', 'd'].length = 4 := rfl
  have hdigits : ['d', '8', '3', 'd'].all Json.isHexDigit = true := by decide
  exact .unicode hlength (List.all_eq_true.mp hdigits) .nil

def loneSurrogateLine : RemoteLine :=
  .object (sampleText loneSurrogate) ['\n'] (sampleText_isCompactObject isChars_loneSurrogate)
    (List.forall_mem_singleton.mpr (by decide))

/-- A parser that decides by the grammar, but cannot make a string of the escape. -/
noncomputable def surrogateParser (s : List Char) : SerdeResult :=
  if s = sampleText loneSurrogate then .other else grammarParser s

theorem isJson_of_surrogateParser {s : List Char} (h : surrogateParser s = .ok) : Json.IsJson s := by
  unfold surrogateParser at h
  split at h
  · exact SerdeResult.noConfusion h
  · exact (isSerde_grammarParser.ok_iff s).mp h

theorem openBracket_pending :
    (consumeLines grammarParser [] [openBracket, emptyObjectLine]).2 = [] := by
  have hbracket : grammarParser ['['] = .eof := by
    rw [isSerde_grammarParser.eof_iff]
    exact ⟨not_isJson_of_scanAll (by decide), ['{', '}', ']'], by decide, isJson_array⟩
  have hboth : grammarParser (['['] ++ ['{', '}']) = .eof := by
    rw [isSerde_grammarParser.eof_iff]
    exact ⟨not_isJson_of_scanAll (by decide), [']'], by decide, isJson_array⟩
  have hshort : ¬ REMOTE_ACP_MAX_PENDING_LINE_BYTES < (Utf8.encode ([] ++ ['['])).length := by decide
  have hfirst : consumeLine grammarParser [] openBracket = (['['], []) := by
    have hconsume : consumeRemoteAcpLine grammarParser [] (['['] ++ []) = consumeChunk grammarParser [] ['['] :=
      consumeRemoteAcpLine_append (.singleton (by decide)) (by decide) (by simp)
    rw [consumeChunk_of_eof hbracket, keepPending, if_neg hshort] at hconsume
    rw [consumeLine, openBracket, RemoteLine.raw, ← List.append_nil ['['], hconsume]
    rfl
  have hsecond : (consumeLine grammarParser ['['] emptyObjectLine).2 = [] := by
    rw [consumeLine, emptyObjectLine, RemoteLine.raw,
      consumeRemoteAcpLine_append isCompactObject_empty.1.noControl (by decide)
        (List.forall_mem_singleton.mpr (by decide)), consumeChunk_of_eof hboth]
    exact emitted_keepPending (['['] ++ ['{', '}'])
  rw [consumeLines, transduce_cons, transduce_cons, hfirst, hsecond]
  rfl

/-- The object after the bracket is not emitted, nor is one that the parser rejects. -/
theorem openBracket_absorbs :
    (consumeLines grammarParser [] [openBracket, emptyObjectLine]).2 = [] ∧
      (∀ s, surrogateParser s = .ok → Json.IsJson s) ∧
      (consumeLines surrogateParser [] [loneSurrogateLine]).2 = [] := by
  refine ⟨openBracket_pending, fun s => isJson_of_surrogateParser, ?_⟩
  have hother : surrogateParser (sampleText loneSurrogate) = .other := if_pos rfl
  have hconsume : consumeRemoteAcpLine surrogateParser [] (sampleText loneSurrogate ++ ['\n']) =
      consumeChunk surrogateParser [] (sampleText loneSurrogate) :=
    consumeRemoteAcpLine_append (sampleText_isCompactObject isChars_loneSurrogate).1.noControl (by decide)
      (List.forall_mem_singleton.mpr (by decide))
  rw [consumeLines, transduce_cons, consumeLine, loneSurrogateLine, RemoteLine.raw, hconsume, consumeChunk,
    List.nil_append, hother]
  rfl

end Builderbot.AcpClient
