import Builderbot.Lib.Table
import Builderbot.Lib.Text

/-!
# The streamed transcript of a session

`MessageWriter` of `apps/staged/src-tauri/src/agent/writer.rs` streams the output of an agent into the
message rows of its session. Tool calls and results are written at once; text is kept in memory and
written when enough time has passed since the last write, so the clock decides when the row of an
assistant message is inserted.

The transcript that should result has a row for each message at the place where its first event
arrived. `recordToolCall` writes the buffered text first, and the clock then makes no difference;
`recordToolResult` does not. `transcript_independent_of_flush_iff` says for which sequences of events
this shows.
-/

namespace Builderbot.Staged

open Builderbot.Lib.Text

/-! ## The writer -/

/-- `MessageRole`, without the role of user messages, which a writer does not write. -/
inductive MessageRole where
  | assistant
  | toolCall
  | toolResult
deriving DecidableEq, Repr

/-- A row of `session_messages`. -/
structure SessionMessage where
  role : MessageRole
  content : List Char
deriving DecidableEq, Repr

/-- `sanitize_title`. -/
def sanitizeTitle (title : List Char) : List Char := title.filter (· ≠ '`')

/-- `strip_code_fences` of `crates/acp-client/src/driver.rs`. -/
def stripCodeFences (content : List Char) : List Char :=
  match List.dropPrefix? (trim content) ['`', '`', '`'] with
  | none => content
  | some afterOpen =>
    match splitOnce ['\n'] afterOpen with
    | none => content
    | some (_, rest) =>
      let body := trimEnd rest
      trimEnd ((List.dropSuffix? body ['`', '`', '`']).getD body)

/-- The calls of a writer. Raw inputs are JSON values of the type `J`. -/
inductive WriterEvent (J : Type*) where
  | appendText (text : List Char)
  | recordToolCall (toolCallId title : List Char) (rawInput : Option J)
  | updateToolCallTitle (toolCallId : List Char) (title : Option (List Char)) (rawInput : Option J)
  | recordToolResult (content : List Char)
deriving DecidableEq, Repr

/-- `MessageWriter`, with the rows it has inserted into the store. Row ids increase, so the id of a
row is its place among them. -/
structure MessageWriter where
  rows : List SessionMessage := []
  currentAssistantMsgId : Option ℕ := none
  currentText : List Char := []
  toolCallRows : Table (List Char) (ℕ × List Char) := ∅
  currentToolResultMsgId : Option ℕ := none

/-- `update_message_content`. -/
def updateMessageContent (rows : List SessionMessage) (id : ℕ) (content : List Char) :
    List SessionMessage :=
  rows.modify id fun m => { m with content }

variable {w : MessageWriter} {T : Transcript} {row : ℕ} (rows : List SessionMessage) {role : MessageRole}

section Writer

variable {J : Type*} (toolCallJson : List Char → J → List Char)

/-- `format_tool_call_content`; `toolCallJson` is the text of the JSON object with the name and the
input. -/
def formatToolCallContent (title : List Char) : Option J → List Char
  | some input => toolCallJson title input
  | none => title

namespace MessageWriter

variable (w : MessageWriter)

/-- `flush_text`. -/
def flushText : MessageWriter :=
  if w.currentText = [] then w
  else
    match w.currentAssistantMsgId with
    | some id => { w with rows := updateMessageContent w.rows id w.currentText }
    | none =>
      { w with
        rows := w.rows ++ [⟨.assistant, w.currentText⟩]
        currentAssistantMsgId := some w.rows.length }

/-- `append_text`; `elapsed` says whether `FLUSH_INTERVAL` has passed since the last flush. -/
def appendText (elapsed : Bool) (text : List Char) : MessageWriter :=
  let w := { w with currentText := w.currentText ++ text }
  if elapsed then w.flushText else w

/-- `finalize`. -/
def finalize : MessageWriter :=
  { w.flushText with currentAssistantMsgId := none, currentText := [] }

/-- `record_tool_call`: a call that is sent again updates its row. -/
def recordToolCall (toolCallId title : List Char) (rawInput : Option J) : MessageWriter :=
  let w := { w.finalize with currentToolResultMsgId := none }
  let title := sanitizeTitle title
  let content := formatToolCallContent toolCallJson title rawInput
  match w.toolCallRows.lookup toolCallId with
  | some (rowId, _) =>
    { w with
      rows := updateMessageContent w.rows rowId content
      toolCallRows := w.toolCallRows.insert toolCallId (rowId, title) }
  | none =>
    { w with
      rows := w.rows ++ [⟨.toolCall, content⟩]
      toolCallRows := w.toolCallRows.insert toolCallId (w.rows.length, title) }

/-- `update_tool_call_title`. -/
def updateToolCallTitle (toolCallId : List Char) (title : Option (List Char)) (rawInput : Option J) :
    MessageWriter :=
  match w.toolCallRows.lookup toolCallId with
  | some (rowId, storedTitle) =>
    let title := (title.map sanitizeTitle).getD storedTitle
    { w with
      rows := updateMessageContent w.rows rowId (formatToolCallContent toolCallJson title rawInput)
      toolCallRows := w.toolCallRows.insert toolCallId (rowId, title) }
  | none => w

/-- `record_tool_result`. The buffered text is not written here. -/
def recordToolResult (content : List Char) : MessageWriter :=
  match w.currentToolResultMsgId with
  | some id => { w with rows := updateMessageContent w.rows id (stripCodeFences content) }
  | none =>
    { w with
      rows := w.rows ++ [⟨.toolResult, stripCodeFences content⟩]
      currentToolResultMsgId := some w.rows.length }

/-- One call, with the choice of the clock, which only `append_text` looks at. -/
def step (e : WriterEvent J × Bool) : MessageWriter :=
  match e.1 with
  | .appendText text => w.appendText e.2 text
  | .recordToolCall toolCallId title rawInput =>
    w.recordToolCall toolCallJson toolCallId title rawInput
  | .updateToolCallTitle toolCallId title rawInput =>
    w.updateToolCallTitle toolCallJson toolCallId title rawInput
  | .recordToolResult content => w.recordToolResult content

/-- The rows of a new writer after a sequence of calls and a final `finalize`. -/
def transcriptRows (timed : List (WriterEvent J × Bool)) : List SessionMessage :=
  (timed.foldl (step toolCallJson) {}).finalize.rows

end MessageWriter

/-! ## The transcript -/

/-- The rows of a transcript, each inserted when its first event arrives. -/
structure Transcript where
  messages : List SessionMessage := []
  firstEvents : List ℕ := []
  openText : Option ℕ := none
  toolCalls : Table (List Char) (ℕ × List Char) := ∅
  openResult : Option ℕ := none

namespace Transcript

variable (T : Transcript)

/-- A message whose first event is number `n`. -/
def insert (n : ℕ) (m : SessionMessage) : Transcript :=
  { T with messages := T.messages ++ [m], firstEvents := T.firstEvents ++ [n] }

/-- A later event of a message. -/
def update (row : ℕ) (f : List Char → List Char) : Transcript :=
  { T with messages := T.messages.modify row fun m => { m with content := f m.content } }

/-- Event number `n`. -/
def step (n : ℕ) : WriterEvent J → Transcript
  | .appendText text =>
    match T.openText with
    | some row => T.update row (· ++ text)
    | none =>
      if text = [] then T
      else { T.insert n ⟨.assistant, text⟩ with openText := some T.messages.length }
  | .recordToolCall toolCallId title rawInput =>
    let T := { T with openText := none, openResult := none }
    let content := formatToolCallContent toolCallJson (sanitizeTitle title) rawInput
    match T.toolCalls.lookup toolCallId with
    | some (row, _) =>
      { T.update row fun _ => content with
        toolCalls := T.toolCalls.insert toolCallId (row, sanitizeTitle title) }
    | none =>
      { T.insert n ⟨.toolCall, content⟩ with
        toolCalls := T.toolCalls.insert toolCallId (T.messages.length, sanitizeTitle title) }
  | .updateToolCallTitle toolCallId title rawInput =>
    match T.toolCalls.lookup toolCallId with
    | some (row, storedTitle) =>
      let title := (title.map sanitizeTitle).getD storedTitle
      { T.update row fun _ => formatToolCallContent toolCallJson title rawInput with
        toolCalls := T.toolCalls.insert toolCallId (row, title) }
    | none => T
  | .recordToolResult content =>
    match T.openResult with
    | some row => T.update row fun _ => stripCodeFences content
    | none =>
      { T.insert n ⟨.toolResult, stripCodeFences content⟩ with
        openResult := some T.messages.length }

/-- The events from number `n` on. -/
def run : ℕ → Transcript → List (WriterEvent J) → Transcript
  | _, T, [] => T
  | n, T, e :: es => run (n + 1) (T.step toolCallJson n e) es

end Transcript

/-- The transcript of a sequence of events. -/
def transcript (events : List (WriterEvent J)) : Transcript :=
  Transcript.run toolCallJson 0 {} events

/-! ## The condition -/

/-- No result row is opened while text is open: `textOpen` and `resultOpen` say whether there has been
text, and a result, since the last tool call. -/
def ResultsPrecedeText : Bool → Bool → List (WriterEvent J) → Prop
  | _, _, [] => True
  | textOpen, resultOpen, e :: es =>
    match e with
    | .appendText text => ResultsPrecedeText (textOpen || text ≠ []) resultOpen es
    | .recordToolCall .. => ResultsPrecedeText false false es
    | .updateToolCallTitle .. => ResultsPrecedeText textOpen resultOpen es
    | .recordToolResult _ =>
      (textOpen = true → resultOpen = true) ∧ ResultsPrecedeText textOpen true es

/-- The text of a sequence of events. -/
def appendedText (events : List (WriterEvent J)) : List Char :=
  events.flatMap fun e => match e with
    | .appendText text => text
    | _ => []

/-- The assistant messages, joined. -/
def assistantText (rows : List SessionMessage) : List Char :=
  (rows.filter fun m => m.role = .assistant).flatMap SessionMessage.content

/-! ## Roles -/

/-- The row has the role. -/
def HasRole (rows : List SessionMessage) (id : ℕ) (role : MessageRole) : Prop :=
  (rows.map SessionMessage.role)[id]? = some role

theorem roles_update (id : ℕ) (f : List Char → List Char) :
    (rows.modify id fun m => { m with content := f m.content }).map SessionMessage.role =
      rows.map SessionMessage.role := by
  refine List.ext_getElem? fun i => ?_
  simp only [List.getElem?_map, List.getElem?_modify]
  split <;> cases rows[i]? <;> rfl

theorem roles_prefix_update (rows : List SessionMessage) (id : ℕ) (content : List Char) :
    rows.map SessionMessage.role <+:
      (updateMessageContent rows id content).map SessionMessage.role := by
  have hroles := roles_update rows id fun _ => content
  exact hroles.symm ▸ List.prefix_refl _

/-- Rows keep their role when later rows are inserted. -/
theorem HasRole.mono {rows rows' : List SessionMessage} {id : ℕ} {role : MessageRole}
    (h : HasRole rows id role)
    (hpre : rows.map SessionMessage.role <+: rows'.map SessionMessage.role) :
    HasRole rows' id role := by
  obtain ⟨tail, htail⟩ := hpre
  rw [HasRole, ← htail, List.getElem?_append_left]
  · exact h
  · exact (List.getElem?_eq_some_iff.mp h).1

theorem HasRole.lt {rows : List SessionMessage} {id : ℕ} {role : MessageRole}
    (h : HasRole rows id role) : id < rows.length := by
  simpa using (List.getElem?_eq_some_iff.mp h).1

theorem HasRole.unique {rows : List SessionMessage} {id : ℕ} {role role' : MessageRole}
    (h : HasRole rows id role) (h' : HasRole rows id role') : role = role' :=
  Option.some.inj (h.symm.trans h')

theorem hasRole_concat (rows : List SessionMessage) (m : SessionMessage) :
    HasRole (rows ++ [m]) rows.length m.role := by
  simp [HasRole]

theorem roles_prefix_concat (m : SessionMessage) :
    rows.map SessionMessage.role <+: (rows ++ [m]).map SessionMessage.role := by
  rw [List.map_append]
  exact List.prefix_append _ _

namespace MessageWriter

variable (w : MessageWriter)

theorem flushText_roles : w.rows.map SessionMessage.role <+: w.flushText.rows.map SessionMessage.role := by
  unfold flushText
  split
  · exact List.prefix_refl _
  · split
    · exact roles_prefix_update _ _ _
    · exact roles_prefix_concat _ _

/-- No call changes the role of a row. -/
theorem step_roles (e : WriterEvent J × Bool) :
    w.rows.map SessionMessage.role <+: (w.step toolCallJson e).rows.map SessionMessage.role := by
  obtain ⟨e, elapsed⟩ := e
  cases e with
  | appendText text =>
    simp only [step, appendText]
    split
    · exact flushText_roles { w with currentText := w.currentText ++ text }
    · exact List.prefix_refl _
  | recordToolCall toolCallId title rawInput =>
    refine (flushText_roles w).trans ?_
    simp only [step, recordToolCall, finalize]
    split
    · exact roles_prefix_update _ _ _
    · exact roles_prefix_concat _ _
  | updateToolCallTitle toolCallId title rawInput =>
    simp only [step, updateToolCallTitle]
    split
    · exact roles_prefix_update _ _ _
    · exact List.prefix_refl _
  | recordToolResult content =>
    simp only [step, recordToolResult]
    split
    · exact roles_prefix_update _ _ _
    · exact roles_prefix_concat _ _

theorem foldl_step_roles (timed : List (WriterEvent J × Bool)) :
    w.rows.map SessionMessage.role <+:
      (timed.foldl (step toolCallJson) w).rows.map SessionMessage.role := by
  induction timed generalizing w with
  | nil => exact List.prefix_refl _
  | cons e timed ih => exact (step_roles toolCallJson w e).trans (ih _)

end MessageWriter

/-! ## The writer and the transcript -/

/-- The text of the writer and the open message of the transcript. While the text is only buffered,
its message is the last one of the transcript; once it is written, only its content may be behind. -/
inductive TextAgrees (w : MessageWriter) (T : Transcript) : Prop where
  | closed (htext : w.currentText = []) (hid : w.currentAssistantMsgId = none)
      (hopen : T.openText = none) (hrows : T.messages = w.rows)
  | buffered (htext : w.currentText ≠ []) (hid : w.currentAssistantMsgId = none)
      (hopen : T.openText = some w.rows.length)
      (hrows : T.messages = w.rows ++ [⟨.assistant, w.currentText⟩])
  | written (row : ℕ) (htext : w.currentText ≠ []) (hid : w.currentAssistantMsgId = some row)
      (hopen : T.openText = some row) (hrole : HasRole w.rows row .assistant)
      (hrows : T.messages = w.rows.set row ⟨.assistant, w.currentText⟩)

/-- The writer follows the transcript. -/
structure Agrees (w : MessageWriter) (T : Transcript) : Prop where
  calls : w.toolCallRows = T.toolCalls
  result : w.currentToolResultMsgId = T.openResult
  text : TextAgrees w T
  callRole : ∀ id row title, T.toolCalls.lookup id = some (row, title) → HasRole w.rows row .toolCall
  resultRole : ∀ row, T.openResult = some row → HasRole w.rows row .toolResult

theorem agrees_new : Agrees {} {} where
  calls := rfl
  result := rfl
  text := .closed rfl rfl rfl rfl
  callRole id row title h := by simp at h
  resultRole row h := by cases h

/-- Writing the content of a row that is already there is setting the row. -/
theorem updateMessageContent_eq_set {rows : List SessionMessage} {row : ℕ} {role : MessageRole}
    (h : HasRole rows row role) (content : List Char) :
    updateMessageContent rows row content = rows.set row ⟨role, content⟩ := by
  refine List.ext_getElem? fun i => ?_
  rw [updateMessageContent, List.getElem?_modify, List.getElem?_set]
  by_cases hi : row = i
  · subst hi
    have hlt := h.lt
    rw [HasRole, List.getElem?_map, List.getElem?_eq_getElem hlt] at h
    simp only [if_true, List.getElem?_eq_getElem hlt, hlt]
    simp only [Option.map_some, Option.some.injEq] at h
    simp [← h]
  · simp [hi]

namespace MessageWriter

variable {w : MessageWriter}

theorem flushText_of_nil (h : w.currentText = []) : w.flushText = w := if_pos h

theorem flushText_of_buffered (h : w.currentText ≠ []) (hid : w.currentAssistantMsgId = none) :
    w.flushText =
      { w with
        rows := w.rows ++ [⟨.assistant, w.currentText⟩]
        currentAssistantMsgId := some w.rows.length } := by
  simp only [flushText, if_neg h, hid]

theorem flushText_of_written (h : w.currentText ≠ []) {row : ℕ}
    (hid : w.currentAssistantMsgId = some row) :
    w.flushText = { w with rows := updateMessageContent w.rows row w.currentText } := by
  simp only [flushText, if_neg h, hid]

end MessageWriter

/-- After a flush the rows are those of the transcript. -/
theorem TextAgrees.flushText_rows {w : MessageWriter} {T : Transcript} (h : TextAgrees w T) :
    w.flushText.rows = T.messages := by
  cases h with
  | closed htext hid hopen hrows => rw [MessageWriter.flushText_of_nil htext, hrows]
  | buffered htext hid hopen hrows => rw [MessageWriter.flushText_of_buffered htext hid, hrows]
  | written row htext hid hopen hrole hrows =>
    rw [MessageWriter.flushText_of_written htext hid, hrows]
    exact updateMessageContent_eq_set hrole _

theorem TextAgrees.flushText {w : MessageWriter} {T : Transcript} (h : TextAgrees w T) :
    TextAgrees w.flushText T := by
  cases h with
  | closed htext hid hopen hrows =>
    rw [MessageWriter.flushText_of_nil htext]
    exact .closed htext hid hopen hrows
  | buffered htext hid hopen hrows =>
    rw [MessageWriter.flushText_of_buffered htext hid]
    refine .written w.rows.length htext rfl hopen (hasRole_concat _ _) ?_
    simp [hrows]
  | written row htext hid hopen hrole hrows =>
    rw [MessageWriter.flushText_of_written htext hid]
    refine .written row htext hid hopen (hrole.mono (roles_prefix_update _ _ _)) ?_
    rw [updateMessageContent_eq_set hrole, List.set_set, hrows]

/-- A row other than the open text is written on both sides. -/
theorem TextAgrees.update {w : MessageWriter} {T : Transcript} (h : TextAgrees w T) {row : ℕ}
    {role : MessageRole} (hrow : HasRole w.rows row role) (hrole : role ≠ .assistant)
    (content : List Char) :
    TextAgrees { w with rows := updateMessageContent w.rows row content }
      (T.update row fun _ => content) := by
  have hmono : ∀ {id : ℕ} {r : MessageRole}, HasRole w.rows id r →
      HasRole (updateMessageContent w.rows row content) id r :=
    fun hid => hid.mono (roles_prefix_update _ _ _)
  cases h with
  | closed htext hid hopen hrows =>
    refine .closed htext hid hopen ?_
    simp only [Transcript.update, hrows]
    rfl
  | buffered htext hid hopen hrows =>
    have hlen : (updateMessageContent w.rows row content).length = w.rows.length := by
      simp [updateMessageContent]
    refine .buffered htext hid (by rw [hlen]; exact hopen) ?_
    simp only [Transcript.update, hrows, updateMessageContent]
    have hlt := hrow.lt
    refine List.ext_getElem? fun i => ?_
    simp only [List.getElem?_modify, List.getElem?_append, List.length_modify]
    by_cases hi : row = i
    · subst hi
      simp [hlt]
    · simp [hi]
  | written id htext hid hopen hassistant hrows =>
    refine .written id htext hid hopen (hmono hassistant) ?_
    have hne : row ≠ id := by
      rintro rfl
      exact hrole (hrow.unique hassistant)
    simp only [Transcript.update, hrows, updateMessageContent]
    refine List.ext_getElem? fun i => ?_
    simp only [List.getElem?_modify, List.getElem?_set, List.length_modify]
    by_cases hi : id = i
    · subst hi
      simp [hne]
    · simp [hi]

/-- A row after the open text, which is written already, is inserted on both sides. -/
theorem TextAgrees.insert {w : MessageWriter} {T : Transcript} (h : TextAgrees w T)
    (hopen : w.currentText = [] ∨ w.currentAssistantMsgId ≠ none) (n : ℕ) (m : SessionMessage) :
    TextAgrees { w with rows := w.rows ++ [m] } (T.insert n m) := by
  cases h with
  | closed htext hid hnone hrows =>
    refine .closed htext hid hnone ?_
    simp only [Transcript.insert, hrows]
  | buffered htext hid hsome hrows =>
    rcases hopen with hnil | hne
    · exact absurd hnil htext
    · exact absurd hid hne
  | written row htext hid hsome hrole hrows =>
    refine .written row htext hid hsome (hrole.mono (roles_prefix_concat _ _)) ?_
    simp only [Transcript.insert, hrows]
    rw [List.set_append_left _ _ hrole.lt]

/-- The agreement of the text is about the rows and the text alone. -/
theorem TextAgrees.congr {w' : MessageWriter} {T' : Transcript} (h : TextAgrees w T)
    (hrows : w'.rows = w.rows) (htext : w'.currentText = w.currentText)
    (hid : w'.currentAssistantMsgId = w.currentAssistantMsgId) (hmessages : T'.messages = T.messages)
    (hopen : T'.openText = T.openText) : TextAgrees w' T' := by
  cases h with
  | closed ht hi ho hr =>
    exact .closed (htext ▸ ht) (hid ▸ hi) (hopen ▸ ho) (by rw [hmessages, hr, hrows])
  | buffered ht hi ho hr =>
    exact .buffered (htext ▸ ht) (hid ▸ hi) (by rw [hopen, ho, hrows])
      (by rw [hmessages, hr, hrows, htext])
  | written row ht hi ho hrole hr =>
    exact .written row (htext ▸ ht) (hid ▸ hi) (hopen ▸ ho) (hrows ▸ hrole)
      (by rw [hmessages, hr, hrows, htext])

theorem Agrees.flushText {w : MessageWriter} {T : Transcript} (h : Agrees w T) :
    Agrees w.flushText T := by
  have hkeep : w.flushText.toolCallRows = w.toolCallRows ∧
      w.flushText.currentToolResultMsgId = w.currentToolResultMsgId := by
    unfold MessageWriter.flushText
    split
    · exact ⟨rfl, rfl⟩
    · split <;> exact ⟨rfl, rfl⟩
  exact
    { calls := hkeep.1.trans h.calls
      result := hkeep.2.trans h.result
      text := h.text.flushText
      callRole := fun id row title hrow => (h.callRole id row title hrow).mono w.flushText_roles
      resultRole := fun row hrow => (h.resultRole row hrow).mono w.flushText_roles }

/-- A closed text, and rows as the transcript has them. -/
theorem Agrees.finalize (h : Agrees w T) : Agrees { w.finalize with currentToolResultMsgId := none }
      { T with openText := none, openResult := none } where
  calls := h.flushText.calls
  result := rfl
  text := .closed rfl rfl rfl h.text.flushText_rows.symm
  callRole := h.flushText.callRole
  resultRole row hrow := by cases hrow

/-- The row of a known tool call is written. -/
theorem Agrees.writeCall (h : Agrees w T) {id : List Char}
    {title' : List Char} (hlook : T.toolCalls.lookup id = some (row, title'))
    (title content : List Char) :
    Agrees
      { w with
        rows := updateMessageContent w.rows row content
        toolCallRows := w.toolCallRows.insert id (row, title) }
      { T.update row fun _ => content with toolCalls := T.toolCalls.insert id (row, title) } where
  calls := by rw [h.calls]
  result := h.result
  text := (h.text.update (h.callRole id row title' hlook) (by decide) content).congr rfl rfl rfl rfl rfl
  callRole id' row' title'' hrow := by
    refine HasRole.mono ?_ (roles_prefix_update _ _ _)
    by_cases heq : id' = id
    · subst heq
      rw [AList.lookup_insert, Option.some.injEq, Prod.mk.injEq] at hrow
      exact hrow.1 ▸ h.callRole id' row title' hlook
    · rw [AList.lookup_insert_ne heq] at hrow
      exact h.callRole id' row' title'' hrow
  resultRole row' hrow := (h.resultRole row' hrow).mono (roles_prefix_update _ _ _)

/-- A row is inserted for a new tool call. -/
theorem Agrees.insertCall (h : Agrees w T)
    (hclosed : w.currentText = []) (n : ℕ) (id title content : List Char) :
    Agrees
      { w with
        rows := w.rows ++ [⟨.toolCall, content⟩]
        toolCallRows := w.toolCallRows.insert id (w.rows.length, title) }
      { T.insert n ⟨.toolCall, content⟩ with
        toolCalls := T.toolCalls.insert id (T.messages.length, title) } := by
  have hrows : T.messages = w.rows := by
    rw [← h.text.flushText_rows, MessageWriter.flushText_of_nil hclosed]
  exact
    { calls := by rw [h.calls, hrows]
      result := h.result
      text := (h.text.insert (.inl hclosed) n _).congr rfl rfl rfl rfl rfl
      callRole := by
        intro id' row' title' hrow
        by_cases heq : id' = id
        · subst heq
          rw [AList.lookup_insert, Option.some.injEq, Prod.mk.injEq, hrows] at hrow
          exact hrow.1 ▸ hasRole_concat w.rows ⟨.toolCall, content⟩
        · rw [AList.lookup_insert_ne heq] at hrow
          exact (h.callRole id' row' title' hrow).mono (roles_prefix_concat _ _)
      resultRole := fun row' hrow => (h.resultRole row' hrow).mono (roles_prefix_concat _ _) }

/-- The row of the open result is written. -/
theorem Agrees.writeResult (h : Agrees w T) (hopen : T.openResult = some row) (content : List Char) :
    Agrees { w with rows := updateMessageContent w.rows row content }
      (T.update row fun _ => content) where
  calls := h.calls
  result := h.result
  text := h.text.update (h.resultRole row hopen) (by decide) content
  callRole id row' title hrow := (h.callRole id row' title hrow).mono (roles_prefix_update _ _ _)
  resultRole row' hrow := (h.resultRole row' hrow).mono (roles_prefix_update _ _ _)

/-- A row is inserted for a new result, when no text is only buffered. -/
theorem Agrees.insertResult (h : Agrees w T)
    (hopen : w.currentText = [] ∨ w.currentAssistantMsgId ≠ none) (n : ℕ) (content : List Char) :
    Agrees
      { w with
        rows := w.rows ++ [⟨.toolResult, content⟩]
        currentToolResultMsgId := some w.rows.length }
      { T.insert n ⟨.toolResult, content⟩ with openResult := some T.messages.length } := by
  have hlen : T.messages.length = w.rows.length := by
    cases h.text with
    | closed htext hid hnone hrows => rw [hrows]
    | buffered htext hid hsome hrows =>
      rcases hopen with hnil | hne
      · exact absurd hnil htext
      · exact absurd hid hne
    | written row htext hid hsome hrole hrows => rw [hrows, List.length_set]
  exact
    { calls := h.calls
      result := by rw [hlen]
      text := (h.text.insert hopen n _).congr rfl rfl rfl rfl rfl
      callRole := fun id row title hrow =>
        (h.callRole id row title hrow).mono (roles_prefix_concat _ _)
      resultRole := by
        intro row hrow
        rw [hlen, Option.some.injEq] at hrow
        exact hrow ▸ hasRole_concat w.rows ⟨.toolResult, content⟩ }

/-- Text is appended to the open message, or opens one. -/
theorem Agrees.appendText (h : Agrees w T) (n : ℕ) (text : List Char) :
    Agrees { w with currentText := w.currentText ++ text }
      (T.step toolCallJson n (.appendText text)) := by
  obtain ⟨hcalls, hresult, htextAgrees, hcallRole, hresultRole⟩ := h
  cases htextAgrees with
  | closed htext hid hopen hrows =>
    by_cases hnil : text = []
    · simp only [Transcript.step, hopen, if_pos hnil]
      refine ⟨hcalls, hresult, .closed ?_ hid hopen hrows, hcallRole, hresultRole⟩
      rw [htext, hnil, List.append_nil]
    · simp only [Transcript.step, hopen, if_neg hnil]
      refine ⟨hcalls, hresult, .buffered ?_ hid ?_ ?_, hcallRole, hresultRole⟩
      · simpa [htext] using hnil
      · rw [hrows]
      · simp [Transcript.insert, hrows, htext]
  | buffered htext hid hopen hrows =>
    simp only [Transcript.step, hopen]
    refine ⟨hcalls, hresult, .buffered (by simp [htext]) hid hopen ?_, hcallRole, hresultRole⟩
    simp only [Transcript.update, hrows]
    refine List.ext_getElem? fun i => ?_
    simp only [List.getElem?_modify, List.getElem?_append]
    by_cases hi : w.rows.length = i
    · subst hi
      simp
    · simp only [hi, if_false, id_map']
      split
      · rfl
      · rw [List.getElem?_eq_none (by simp; omega), List.getElem?_eq_none (by simp; omega)]
  | written row htext hid hopen hrole hrows =>
    simp only [Transcript.step, hopen]
    refine ⟨hcalls, hresult, .written row (by simp [htext]) hid hopen hrole ?_, hcallRole,
      hresultRole⟩
    have hlt := hrole.lt
    simp only [Transcript.update, hrows]
    refine List.ext_getElem? fun i => ?_
    simp only [List.getElem?_modify, List.getElem?_set]
    by_cases hi : row = i
    · subst hi
      simp [hlt]
    · simp [hi]

/-- One call. Only a result that opens a row needs the text to be written. -/
theorem Agrees.step (h : Agrees w T) (n : ℕ) (e : WriterEvent J × Bool)
    (hresult : ∀ content, e.1 = .recordToolResult content → T.openResult = none →
      w.currentText = [] ∨ w.currentAssistantMsgId ≠ none) :
    Agrees (w.step toolCallJson e) (T.step toolCallJson n e.1) := by
  obtain ⟨e, elapsed⟩ := e
  cases e with
  | appendText text =>
    have happend := h.appendText toolCallJson n text
    simp only [MessageWriter.step, MessageWriter.appendText]
    split
    · exact happend.flushText
    · exact happend
  | recordToolCall toolCallId title rawInput =>
    have hfinal := h.finalize
    -- both know the same calls, so both write to the same row
    have hcalls : w.finalize.toolCallRows.lookup toolCallId = T.toolCalls.lookup toolCallId :=
      congrArg (AList.lookup toolCallId) hfinal.calls
    cases hlook : T.toolCalls.lookup toolCallId with
    | some call =>
      simp only [MessageWriter.step, MessageWriter.recordToolCall, Transcript.step, hcalls, hlook]
      exact hfinal.writeCall hlook _ _
    | none =>
      simp only [MessageWriter.step, MessageWriter.recordToolCall, Transcript.step, hcalls, hlook]
      exact hfinal.insertCall rfl n _ _ _
  | updateToolCallTitle toolCallId title rawInput =>
    have hcalls : w.toolCallRows.lookup toolCallId = T.toolCalls.lookup toolCallId :=
      congrArg (AList.lookup toolCallId) h.calls
    cases hlook : T.toolCalls.lookup toolCallId with
    | some call =>
      simp only [MessageWriter.step, MessageWriter.updateToolCallTitle, Transcript.step, hcalls,
        hlook]
      exact h.writeCall hlook _ _
    | none =>
      simp only [MessageWriter.step, MessageWriter.updateToolCallTitle, Transcript.step, hcalls,
        hlook]
      exact h
  | recordToolResult content =>
    cases hopen : T.openResult with
    | some row =>
      have hid : w.currentToolResultMsgId = some row := h.result.trans hopen
      simpa only [MessageWriter.step, MessageWriter.recordToolResult, Transcript.step, hid, hopen]
        using h.writeResult hopen (stripCodeFences content)
    | none =>
      have hid : w.currentToolResultMsgId = none := h.result.trans hopen
      simpa only [MessageWriter.step, MessageWriter.recordToolResult, Transcript.step, hid, hopen]
        using h.insertResult (hresult content rfl hopen) n (stripCodeFences content)

theorem TextAgrees.openText_isSome (h : TextAgrees w T) : T.openText.isSome = true ↔ w.currentText ≠ [] := by
  cases h with
  | closed htext hid hopen hrows => simp [htext, hopen]
  | buffered htext hid hopen hrows => simp [htext, hopen]
  | written row htext hid hopen hrole hrows => simp [htext, hopen]

/-- The condition, in terms of the transcript so far. -/
theorem resultsPrecedeText_cons (T : Transcript) (n : ℕ) (e : WriterEvent J)
    (es : List (WriterEvent J)) :
    ResultsPrecedeText T.openText.isSome T.openResult.isSome (e :: es) ↔
      (∀ content, e = .recordToolResult content → T.openText.isSome = true →
        T.openResult.isSome = true) ∧
      ResultsPrecedeText (T.step toolCallJson n e).openText.isSome
        (T.step toolCallJson n e).openResult.isSome es := by
  cases e with
  | appendText text =>
    simp only [ResultsPrecedeText, reduceCtorEq, false_implies, implies_true, true_and,
      Transcript.step]
    split
    · rename_i row hopen
      simp [Transcript.update, hopen]
    · rename_i hopen
      split
      · rename_i hnil
        simp [hopen, hnil]
      · rename_i hnil
        simp [Transcript.insert, hopen, hnil]
  | recordToolCall | updateToolCallTitle =>
    simp only [ResultsPrecedeText, reduceCtorEq, false_implies, implies_true, true_and,
      Transcript.step]
    split <;> rfl
  | recordToolResult content =>
    simp only [ResultsPrecedeText, WriterEvent.recordToolResult.injEq, forall_eq', Transcript.step]
    refine and_congr_right fun _ => ?_
    split
    · rename_i row hopen
      simp [Transcript.update, hopen]
    · simp [Transcript.insert]

/-- Under the condition the writer follows the transcript, whatever the clock does. -/
theorem Agrees.foldl (h : Agrees w T) (n : ℕ) {timed : List (WriterEvent J × Bool)}
    (hcond : ResultsPrecedeText T.openText.isSome T.openResult.isSome (timed.map Prod.fst)) :
    Agrees (timed.foldl (MessageWriter.step toolCallJson) w)
      (Transcript.run toolCallJson n T (timed.map Prod.fst)) := by
  induction timed generalizing w T n with
  | nil => exact h
  | cons e timed ih =>
    obtain ⟨hresult, hrest⟩ := (resultsPrecedeText_cons toolCallJson T n e.1 _).mp hcond
    refine ih (h.step toolCallJson n e ?_) (n + 1) hrest
    intro content he hopen
    refine .inl (not_not.mp fun hne => ?_)
    have hsome := hresult content he (h.text.openText_isSome.mpr hne)
    rw [hopen] at hsome
    exact absurd hsome (by decide)

/-! ## The transcript in its own right -/

/-- Rows are inserted in the order of their first events, and the last assistant message is the open
one, if there is one. `text` is the text so far. -/
structure Transcript.WellFormed (T : Transcript) (n : ℕ) (text : List Char) : Prop where
  sorted : T.firstEvents.Pairwise (· < ·)
  before : ∀ i ∈ T.firstEvents, i < n
  length : T.firstEvents.length = T.messages.length
  callRole : ∀ id row title, T.toolCalls.lookup id = some (row, title) →
    HasRole T.messages row .toolCall
  resultRole : ∀ row, T.openResult = some row → HasRole T.messages row .toolResult
  openRole : ∀ row, T.openText = some row → HasRole T.messages row .assistant ∧
    ∀ later, row < later → ¬ HasRole T.messages later .assistant
  text_eq : assistantText T.messages = text

theorem assistantText_append (rows' : List SessionMessage) :
    assistantText (rows ++ rows') = assistantText rows ++ assistantText rows' := by
  simp [assistantText]

variable {rows : List SessionMessage}

/-- A row split off from a list of rows. -/
theorem modify_eq_of_hasRole (h : HasRole rows row role) (f : SessionMessage → SessionMessage) :
    ∃ m, m.role = role ∧ rows = rows.take row ++ m :: rows.drop (row + 1) ∧
      rows.modify row f = rows.take row ++ f m :: rows.drop (row + 1) := by
  have hlt := h.lt
  rw [HasRole, List.getElem?_map, List.getElem?_eq_getElem hlt, Option.map_some,
    Option.some.injEq] at h
  refine ⟨rows[row], h, ?_, ?_⟩
  · rw [List.getElem_cons_drop, List.take_append_drop]
  · rw [List.modify_eq_take_cons_drop hlt]

/-- The text does not depend on the content of other rows. -/
theorem assistantText_update_of_ne
    (h : HasRole rows row role) (hrole : role ≠ .assistant) (f : List Char → List Char) :
    assistantText (rows.modify row fun m => { m with content := f m.content }) =
      assistantText rows := by
  obtain ⟨m, hm, hrows, hmod⟩ := modify_eq_of_hasRole h fun m => { m with content := f m.content }
  rw [hmod]
  conv_rhs => rw [hrows]
  rw [assistantText_append, assistantText_append]
  simp [assistantText, hm, hrole]

/-- Appending to the last assistant message appends to the text. -/
theorem assistantText_update_last
    (h : HasRole rows row .assistant) (hlast : ∀ later, row < later → ¬ HasRole rows later .assistant)
    (text : List Char) :
    assistantText (rows.modify row fun m => { m with content := m.content ++ text }) =
      assistantText rows ++ text := by
  obtain ⟨m, hm, hrows, hmod⟩ := modify_eq_of_hasRole h fun m => { m with content := m.content ++ text }
  have htail : assistantText (rows.drop (row + 1)) = [] := by
    have hnone : (rows.drop (row + 1)).filter (fun m => m.role = .assistant) = [] := by
      rw [List.filter_eq_nil_iff]
      intro m' hm' hrole
      obtain ⟨i, hi⟩ := List.mem_iff_getElem?.mp hm'
      rw [List.getElem?_drop] at hi
      refine hlast (row + 1 + i) (by omega) ?_
      rw [HasRole, List.getElem?_map, hi]
      simpa using hrole
    rw [assistantText, hnone, List.flatMap_nil]
  have hcons : ∀ m' : SessionMessage, m'.role = .assistant →
      assistantText (m' :: rows.drop (row + 1)) = m'.content := by
    intro m' hm'
    rw [← List.singleton_append, assistantText_append, htail, List.append_nil]
    simp [assistantText, hm']
  rw [hmod]
  conv_rhs => rw [hrows]
  rw [assistantText_append, assistantText_append, hcons m hm,
    hcons { m with content := m.content ++ text } hm, List.append_assoc]

namespace Transcript.WellFormed

variable {T : Transcript} {n : ℕ} {text : List Char}

theorem new : WellFormed {} 0 [] where
  sorted := List.Pairwise.nil
  before := by simp
  length := rfl
  callRole id row title h := by simp at h
  resultRole row h := by cases h
  openRole row h := by cases h
  text_eq := rfl

/-- Time passes. -/
theorem next (h : T.WellFormed n text) : T.WellFormed (n + 1) text :=
  { h with before := fun i hi => Nat.lt_succ_of_lt (h.before i hi) }

/-- A later event of a message changes its content only. -/
theorem modified (h : T.WellFormed n text) (row : ℕ) (f : List Char → List Char) {text' : List Char}
    (htext : assistantText (T.update row f).messages = text') :
    (T.update row f).WellFormed n text' := by
  have hiff : ∀ id r, HasRole (T.update row f).messages id r ↔ HasRole T.messages id r := by
    intro id r
    rw [HasRole, HasRole, Transcript.update, roles_update]
  exact
    { sorted := h.sorted
      before := h.before
      length := by rw [Transcript.update, List.length_modify]; exact h.length
      callRole := fun id row' title hlook => (hiff _ _).mpr (h.callRole id row' title hlook)
      resultRole := fun row' hopen => (hiff _ _).mpr (h.resultRole row' hopen)
      openRole := fun row' hopen => ⟨(hiff _ _).mpr (h.openRole row' hopen).1,
        fun later hlater hr => (h.openRole row' hopen).2 later hlater ((hiff _ _).mp hr)⟩
      text_eq := htext }

/-- A later event of a message other than the open text. -/
theorem update (h : T.WellFormed n text) {row : ℕ} {role : MessageRole}
    (hrow : HasRole T.messages row role) (hrole : role ≠ .assistant) (content : List Char) :
    (T.update row fun _ => content).WellFormed n text :=
  h.modified row _ ((assistantText_update_of_ne hrow hrole fun _ => content).trans h.text_eq)

/-- The open message grows. -/
theorem append (h : T.WellFormed n text) (hopen : T.openText = some row) (more : List Char) :
    (T.update row (· ++ more)).WellFormed n (text ++ more) := by
  obtain ⟨hrole, hlast⟩ := h.openRole row hopen
  refine h.modified row _ ?_
  rw [Transcript.update, assistantText_update_last hrole hlast, h.text_eq]

/-- A new message; its text counts if it is one of the assistant, and no text is open then. -/
theorem insert (h : T.WellFormed n text) {m : SessionMessage}
    (hm : m.role = .assistant → T.openText = none) :
    (T.insert n m).WellFormed (n + 1) (text ++ assistantText [m]) := by
  have hmono : ∀ {id r}, HasRole T.messages id r → HasRole (T.insert n m).messages id r :=
    fun hid => hid.mono (roles_prefix_concat _ _)
  exact
    { sorted := List.pairwise_append.mpr ⟨h.sorted, List.pairwise_singleton _ _, fun i hi j hj => by
        rw [List.mem_singleton.mp hj]
        exact h.before i hi⟩
      before := by
        intro i hi
        rcases List.mem_append.mp hi with hi | hi
        · exact Nat.lt_succ_of_lt (h.before i hi)
        · rw [List.mem_singleton.mp hi]
          exact Nat.lt_succ_self n
      length := by simp [Transcript.insert, h.length]
      callRole := fun id row title hlook => hmono (h.callRole id row title hlook)
      resultRole := fun row hopen => hmono (h.resultRole row hopen)
      openRole := by
        intro row hopen
        refine ⟨hmono (h.openRole row hopen).1, ?_⟩
        intro later hlater hrole
        by_cases hlt : later < T.messages.length
        · refine (h.openRole row hopen).2 later hlater ?_
          simpa [HasRole, Transcript.insert, List.getElem?_append, hlt] using hrole
        · have hlen : later = T.messages.length := by
            have := hrole.lt
            simp only [Transcript.insert, List.length_append, List.length_singleton] at this
            omega
          subst hlen
          have hassistant : m.role = .assistant := (hasRole_concat T.messages m).unique hrole
          rw [Transcript.insert, hm hassistant] at hopen
          cases hopen
      text_eq := by rw [Transcript.insert, assistantText_append, h.text_eq] }

/-- The text and the result are closed. -/
theorem close (h : T.WellFormed n text) :
    WellFormed { T with openText := none, openResult := none } n text :=
  { h with
    resultRole := fun row hrow => by cases hrow
    openRole := fun row hrow => by cases hrow }

/-- A tool call is remembered with its row. -/
theorem remember (h : T.WellFormed n text) (hrow : HasRole T.messages row .toolCall) (id title : List Char) :
    WellFormed { T with toolCalls := T.toolCalls.insert id (row, title) } n text :=
  { h with
    callRole := by
      intro id' row' title' hlook
      by_cases heq : id' = id
      · subst heq
        rw [AList.lookup_insert, Option.some.injEq, Prod.mk.injEq] at hlook
        exact hlook.1 ▸ hrow
      · rw [AList.lookup_insert_ne heq] at hlook
        exact h.callRole id' row' title' hlook }

theorem update_hasRole {id : ℕ} {r : MessageRole} (h : HasRole T.messages id r) (row : ℕ)
    (content : List Char) : HasRole (T.update row fun _ => content).messages id r :=
  h.mono (roles_prefix_update _ _ _)

/-- One event. -/
theorem step (h : T.WellFormed n text) (e : WriterEvent J) :
    (T.step toolCallJson n e).WellFormed (n + 1) (text ++ appendedText [e]) := by
  cases e with
  | appendText more =>
    have happended : appendedText [WriterEvent.appendText (J := J) more] = more := by
      simp [appendedText]
    rw [happended, Transcript.step]
    split
    · rename_i row hopen
      exact (h.append hopen more).next
    · rename_i hopen
      split
      · rename_i hnil
        rw [hnil, List.append_nil]
        exact h.next
      · have hins := h.insert (m := ⟨.assistant, more⟩) fun _ => hopen
        have htext : assistantText [⟨.assistant, more⟩] = more := by simp [assistantText]
        rw [htext] at hins
        exact
          { hins with
            openRole := by
              intro row hrow
              obtain rfl : T.messages.length = row := Option.some.inj hrow
              refine ⟨hasRole_concat _ _, fun later hlater hrole => ?_⟩
              have := hrole.lt
              simp only [Transcript.insert, List.length_append, List.length_singleton] at this
              omega }
  | recordToolCall toolCallId title rawInput =>
    rw [show appendedText [WriterEvent.recordToolCall toolCallId title rawInput] = [] from rfl,
      List.append_nil, Transcript.step]
    dsimp only
    split
    · rename_i row title' hlook
      have hrow := h.close.callRole toolCallId row title' hlook
      exact ((h.close.update hrow (by decide) _).remember (update_hasRole hrow _ _) _ _).next
    · have hins := h.close.insert (m := ⟨.toolCall, formatToolCallContent toolCallJson
        (sanitizeTitle title) rawInput⟩) (by simp)
      rw [show ∀ c, assistantText [⟨.toolCall, c⟩] = [] from fun _ => rfl, List.append_nil] at hins
      exact hins.remember (hasRole_concat _ _) _ _
  | updateToolCallTitle toolCallId title rawInput =>
    rw [show appendedText [WriterEvent.updateToolCallTitle toolCallId title rawInput] = [] from rfl,
      List.append_nil, Transcript.step]
    split
    · rename_i row title' hlook
      have hrow := h.callRole toolCallId row title' hlook
      exact ((h.update hrow (by decide) _).remember (update_hasRole hrow _ _) _ _).next
    · exact h.next
  | recordToolResult content =>
    rw [show appendedText [WriterEvent.recordToolResult (J := J) content] = [] from rfl,
      List.append_nil, Transcript.step]
    split
    · rename_i row hopen
      exact (h.update (h.resultRole row hopen) (by decide) _).next
    · have hins := h.insert (m := ⟨.toolResult, stripCodeFences content⟩) (by simp)
      rw [show ∀ c, assistantText [⟨.toolResult, c⟩] = [] from fun _ => rfl, List.append_nil] at hins
      exact
        { hins with
          resultRole := by
            intro row hrow
            obtain rfl : T.messages.length = row := Option.some.inj hrow
            exact hasRole_concat _ _ }

theorem run (h : T.WellFormed n text) (events : List (WriterEvent J)) :
    (Transcript.run toolCallJson n T events).WellFormed (n + events.length)
      (text ++ appendedText events) := by
  induction events generalizing T n text with
  | nil => simpa [Transcript.run, appendedText] using h
  | cons e es ih =>
    have hrest := ih (h.step toolCallJson e)
    have hsplit : appendedText (e :: es) = appendedText [e] ++ appendedText es := by
      simp [appendedText]
    rw [hsplit, ← List.append_assoc, List.length_cons, Transcript.run,
      show n + (es.length + 1) = n + 1 + es.length by omega]
    exact hrest

end Transcript.WellFormed

/-! ## Two clocks -/

theorem map_fst_clock (events : List (WriterEvent J)) (elapsed : Bool) :
    (events.map (·, elapsed)).map Prod.fst = events := by
  rw [List.map_map]
  exact List.map_id _

/-- With a flush at every call, text that is open has a row. -/
theorem always_written (events : List (WriterEvent J))
    (h : w.currentText ≠ [] → w.currentAssistantMsgId ≠ none) :
    let w' := (events.map (·, true)).foldl (MessageWriter.step toolCallJson) w
    w'.currentText ≠ [] → w'.currentAssistantMsgId ≠ none := by
  induction events generalizing w with
  | nil => exact h
  | cons e es ih =>
    refine ih ?_
    cases e with
    | appendText text =>
      simp only [MessageWriter.step, MessageWriter.appendText, if_true, MessageWriter.flushText]
      split
      · rename_i hnil
        exact fun hne => absurd hnil hne
      · split
        · rename_i id hid
          simp [hid]
        · simp
    | recordToolCall toolCallId title rawInput =>
      simp only [MessageWriter.step, MessageWriter.recordToolCall]
      split <;> exact fun hne => absurd rfl hne
    | updateToolCallTitle toolCallId title rawInput =>
      simp only [MessageWriter.step, MessageWriter.updateToolCallTitle]
      split <;> exact h
    | recordToolResult content =>
      simp only [MessageWriter.step, MessageWriter.recordToolResult]
      split <;> exact h

/-- Without a flush, it has none. -/
theorem never_written (events : List (WriterEvent J)) (h : w.currentAssistantMsgId = none) :
    ((events.map (·, false)).foldl (MessageWriter.step toolCallJson) w).currentAssistantMsgId = none := by
  induction events generalizing w with
  | nil => exact h
  | cons e es ih =>
    refine ih ?_
    cases e with
    | appendText text => exact h
    | recordToolCall toolCallId title rawInput =>
      simp only [MessageWriter.step, MessageWriter.recordToolCall]
      split <;> rfl
    | updateToolCallTitle toolCallId title rawInput =>
      simp only [MessageWriter.step, MessageWriter.updateToolCallTitle]
      split <;> exact h
    | recordToolResult content =>
      simp only [MessageWriter.step, MessageWriter.recordToolResult]
      split <;> exact h

/-- The first event that breaks the condition is a result that opens a row while text is open. -/
theorem exists_first_violation (n : ℕ) {events : List (WriterEvent J)}
    (h : ¬ ResultsPrecedeText T.openText.isSome T.openResult.isSome events) :
    ∃ before content after, events = before ++ .recordToolResult content :: after ∧
      ResultsPrecedeText T.openText.isSome T.openResult.isSome before ∧
      (Transcript.run toolCallJson n T before).openText.isSome = true ∧
      (Transcript.run toolCallJson n T before).openResult = none := by
  induction events generalizing T n with
  | nil => exact absurd trivial h
  | cons e es ih =>
    rw [resultsPrecedeText_cons toolCallJson T n, Classical.not_and_iff_not_or_not] at h
    by_cases he : ∀ content, e = .recordToolResult content → T.openText.isSome = true →
        T.openResult.isSome = true
    · rcases h with h | h
      · exact absurd he h
      · obtain ⟨before, content, after, rfl, hbefore, hopen⟩ := ih (n + 1) h
        refine ⟨e :: before, content, after, rfl, ?_, hopen⟩
        exact (resultsPrecedeText_cons toolCallJson T n e before).mpr ⟨he, hbefore⟩
    · simp only [not_forall] at he
      obtain ⟨content, rfl, htext, hresult⟩ := he
      refine ⟨[], content, es, rfl, trivial, htext, ?_⟩
      simpa [Transcript.run] using hresult

/-- The role a row has after some of the calls is its role at the end. -/
theorem hasRole_transcriptRows {before after : List (WriterEvent J × Bool)}
    (h : HasRole (before.foldl (MessageWriter.step toolCallJson) {}).rows row role) :
    HasRole (MessageWriter.transcriptRows toolCallJson (before ++ after)) row role := by
  rw [MessageWriter.transcriptRows, List.foldl_append]
  exact h.mono ((MessageWriter.foldl_step_roles toolCallJson _ after).trans
    (MessageWriter.flushText_roles _))

/-- A result that opens a row while text is open comes before the text or after it, as the clock
decides. -/
theorem flush_decides_order {before after : List (WriterEvent J)} {content : List Char}
    (hbefore : ResultsPrecedeText false false before)
    (htext : (transcript toolCallJson before).openText.isSome = true)
    (hresult : (transcript toolCallJson before).openResult = none) :
    let events := before ++ .recordToolResult content :: after
    MessageWriter.transcriptRows toolCallJson (events.map (·, true)) ≠
      MessageWriter.transcriptRows toolCallJson (events.map (·, false)) := by
  intro events heq
  have hmap : ∀ b : Bool, events.map (·, b) =
      before.map (·, b) ++ (.recordToolResult content, b) :: after.map (·, b) :=
    fun b => by simp [events]
  have hfollows : ∀ b : Bool,
      Agrees ((before.map (·, b)).foldl (MessageWriter.step toolCallJson) {})
        (transcript toolCallJson before) := by
    intro b
    have hrun := agrees_new.foldl toolCallJson 0 ((map_fst_clock before b).symm ▸ hbefore)
    rwa [map_fst_clock before b] at hrun
  obtain ⟨row, hopen⟩ := Option.isSome_iff_exists.mp htext
  -- with every call flushed, the text has its row
  have hassistant : HasRole (MessageWriter.transcriptRows toolCallJson (events.map (·, true))) row
      .assistant := by
    rw [hmap true]
    refine hasRole_transcriptRows toolCallJson ?_
    have hw := always_written toolCallJson before (w := {}) (by simp)
    cases (hfollows true).text with
    | closed ht hid hnone hrows => rw [hopen] at hnone; cases hnone
    | buffered ht hid hsome hrows => exact absurd hid (hw ht)
    | written row' ht hid hsome hrole hrows =>
      rw [hopen, Option.some.injEq] at hsome
      exact hsome ▸ hrole
  -- without a flush, the row is the one of the result
  have htool : HasRole (MessageWriter.transcriptRows toolCallJson (events.map (·, false))) row
      .toolResult := by
    rw [hmap false, List.append_cons]
    refine hasRole_transcriptRows toolCallJson ?_
    rw [List.foldl_append]
    have hw := never_written toolCallJson before (w := {}) rfl
    have hlen : ((before.map (·, false)).foldl (MessageWriter.step toolCallJson) {}).rows.length =
        row := by
      cases (hfollows false).text with
      | closed ht hid hnone hrows => rw [hopen] at hnone; cases hnone
      | buffered ht hid hsome hrows => exact (Option.some.inj (hopen.symm.trans hsome)).symm
      | written row' ht hid hsome hrole hrows => rw [hw] at hid; cases hid
    simp only [List.foldl_cons, List.foldl_nil, MessageWriter.step, MessageWriter.recordToolResult,
      (hfollows false).result.trans hresult]
    rw [← hlen]
    exact hasRole_concat _ _
  rw [heq] at hassistant
  exact absurd (hassistant.unique htool) (by decide)

/-- The rows are those of the transcript, each where its first event arrived. -/
def InOrderOfFirstEvents (events : List (WriterEvent J)) (rows : List SessionMessage) : Prop :=
  rows = (transcript toolCallJson events).messages ∧
    (transcript toolCallJson events).firstEvents.length = rows.length ∧
      (transcript toolCallJson events).firstEvents.Pairwise (· < ·)

/-- When the transcript does not depend on the clock. For every sequence of calls: the rows are the
same for every choice of the flushes, their assistant messages are the text that was appended, and
they are in the order of their first events, if and only if no tool result opens a row after text has
been appended since the last tool call. -/
theorem transcript_independent_of_flush_iff (events : List (WriterEvent J)) :
    ((∀ timed timed', timed.map Prod.fst = events → timed'.map Prod.fst = events →
        MessageWriter.transcriptRows toolCallJson timed =
          MessageWriter.transcriptRows toolCallJson timed') ∧
      ∀ timed, timed.map Prod.fst = events →
        assistantText (MessageWriter.transcriptRows toolCallJson timed) = appendedText events ∧
          InOrderOfFirstEvents toolCallJson events
            (MessageWriter.transcriptRows toolCallJson timed)) ↔
      ResultsPrecedeText false false events := by
  constructor
  · rintro ⟨hsame, -⟩
    by_contra hcond
    obtain ⟨before, content, after, rfl, hbefore, htext, hresult⟩ :=
      exists_first_violation toolCallJson 0 (T := {}) hcond
    exact flush_decides_order toolCallJson hbefore htext hresult
      (hsame _ _ (map_fst_clock _ true) (map_fst_clock _ false))
  · intro hcond
    have hrows : ∀ timed, timed.map Prod.fst = events →
        MessageWriter.transcriptRows toolCallJson timed =
          (transcript toolCallJson events).messages := by
      rintro timed rfl
      exact (agrees_new.foldl toolCallJson 0 hcond).text.flushText_rows
    have hwf := Transcript.WellFormed.new.run toolCallJson events
    refine ⟨fun timed timed' h h' => (hrows timed h).trans (hrows timed' h').symm, ?_⟩
    intro timed htimed
    rw [hrows timed htimed]
    exact ⟨hwf.text_eq, rfl, hwf.length, hwf.sorted⟩

/-- Text and then a result that opens a row. -/
def textThenResult : List (WriterEvent Unit) :=
  [.appendText ['a'], .recordToolResult ['r']]

/-- Two clocks, two orders. -/
theorem transcriptRows_textThenResult :
    MessageWriter.transcriptRows (fun title _ => title) (textThenResult.map (·, true)) =
        [⟨.assistant, ['a']⟩, ⟨.toolResult, ['r']⟩] ∧
      MessageWriter.transcriptRows (fun title _ => title) (textThenResult.map (·, false)) =
        [⟨.toolResult, ['r']⟩, ⟨.assistant, ['a']⟩] ∧
      MessageWriter.transcriptRows (fun title _ => title) (textThenResult.map (·, true)) ≠
        MessageWriter.transcriptRows (fun title _ => title) (textThenResult.map (·, false)) := by
  decide

end Writer

end Builderbot.Staged
