import Builderbot.AcpClient.ReplayIsolation
import Builderbot.Staged.MessageWriter

/-!
# The rows of a tool call

The handler of `crates/acp-client/src/driver.rs` turns the notifications about tool calls into calls of
the `MessageWriter` of `apps/staged/src-tauri/src/agent/writer.rs`. The writer finds the row of a call by
its id, but it remembers only one row for results, and an update of a title writes the row anew without
the input that was there. `keepsOwnRows_iff` says for which sequences of notifications every call still
keeps its input and its result.
-/

namespace Builderbot.Staged

open Builderbot.AcpClient

/-! ## Notifications about tool calls -/

/-- The notifications `ToolCall` and `ToolCallUpdate`. -/
inductive ToolNotification (J : Type*) where
  | toolCall (toolCallId title : List Char) (rawInput : Option J)
  | toolCallUpdate (toolCallId : List Char) (title : Option (List Char)) (rawInput : Option J)
      (content : Option (List ToolCallContent))
deriving DecidableEq, Repr

variable {J : Type*}

namespace ToolNotification

def update : ToolNotification J → SessionUpdate J Unit
  | toolCall toolCallId title rawInput => .toolCall toolCallId title rawInput
  | toolCallUpdate toolCallId title rawInput content =>
    .toolCallUpdate toolCallId title rawInput content

def toolCallId : ToolNotification J → List Char
  | toolCall toolCallId .. | toolCallUpdate toolCallId .. => toolCallId

def isToolCall : ToolNotification J → Bool
  | toolCall .. => true
  | toolCallUpdate .. => false

/-- The title that is reported. -/
def title : ToolNotification J → Option (List Char)
  | toolCall _ title _ => some title
  | toolCallUpdate _ title _ _ => title

/-- The raw input that is reported. -/
def rawInput : ToolNotification J → Option J
  | toolCall _ _ rawInput | toolCallUpdate _ _ rawInput _ => rawInput

/-- The result that is reported, as the handler shortens it. -/
def result : ToolNotification J → Option (List Char)
  | toolCall .. => none
  | toolCallUpdate _ _ _ content => content.bind extractContentPreview

/-- The input of a notification that reports a title or an input. -/
def rewrite (n : ToolNotification J) : Option (Option J) :=
  if n.title.isSome ∨ n.rawInput.isSome then some n.rawInput else none

end ToolNotification

/-- The last value that is reported for the id. -/
def lastReported {β : Type*} (f : ToolNotification J → Option β) (us : List (ToolNotification J))
    (id : List Char) : Option β :=
  us.reverse.findSome? fun n => if n.toolCallId = id then f n else none

/-- The id whose result came first after the last `ToolCall`. -/
def resultOwner (us : List (ToolNotification J)) : Option (List Char) :=
  us.foldl (fun owner n =>
    if n.isToolCall then none else owner.or (n.result.map fun _ => n.toolCallId)) none

/-! ## Calls of the writer -/

/-- What a call of the handler is for the writer of the application, which ignores session metadata. -/
def WriterEvent.ofCall {M : Type*} : WriterCall J M → Option (WriterEvent J)
  | .appendText text => some (.appendText text)
  | .recordToolCall toolCallId title rawInput => some (.recordToolCall toolCallId title rawInput)
  | .updateToolCallTitle toolCallId title rawInput =>
    some (.updateToolCallTitle toolCallId title rawInput)
  | .recordToolResult content => some (.recordToolResult content)
  | .onSessionInfoUpdate _ | .onConfigOptionUpdate _ => none

/-- The calls that a notification causes when the handler is live; `seen` are the ids of the replay. -/
def toolEvents (seen : Finset (List Char)) (n : ToolNotification J) : List (WriterEvent J) :=
  (sessionNotification (.live seen) n.update).2.2.filterMap WriterEvent.ofCall

/-- The row that a call about a tool inserts or updates. -/
def MessageWriter.writtenRow (w : MessageWriter) : WriterEvent J → Option ℕ
  | .appendText _ => none
  | .recordToolCall toolCallId _ _ =>
    some (((w.toolCallRows.lookup toolCallId).map Prod.fst).getD w.finalize.rows.length)
  | .updateToolCallTitle toolCallId _ _ => (w.toolCallRows.lookup toolCallId).map Prod.fst
  | .recordToolResult _ => some (w.currentToolResultMsgId.getD w.rows.length)

/-- A writer together with a record of its writes: the row, and the id whose notification caused it. -/
structure Ledger where
  writer : MessageWriter := {}
  writes : List (ℕ × List Char) := []

namespace Ledger

section Operations

variable (toolCallJson : List Char → J → List Char) (seen : Finset (List Char)) (L : Ledger)

/-- One call of the writer on behalf of an id. -/
def call (id : List Char) (e : WriterEvent J) : Ledger where
  writer := L.writer.step toolCallJson (e, false)
  writes := L.writes ++ (L.writer.writtenRow e).toList.map (·, id)

/-- One notification. -/
def receive (n : ToolNotification J) : Ledger :=
  (toolEvents seen n).foldl (fun L e => L.call toolCallJson n.toolCallId e) L

end Operations

/-- The id has a row, and it is the only one of the role that the id has written. -/
def CallRow (L : Ledger) (id content : List Char) : Prop :=
  ∃ row, (row, id) ∈ L.writes ∧ L.writer.rows[row]? = some ⟨.toolCall, content⟩ ∧
    ∀ row', (row', id) ∈ L.writes → HasRole L.writer.rows row' .toolCall → row' = row

/-- The id has a result row with the content. -/
def ResultRow (L : Ledger) (id content : List Char) : Prop :=
  ∃ row, (row, id) ∈ L.writes ∧ L.writer.rows[row]? = some ⟨.toolResult, content⟩

/-- No row is written for two ids. -/
def RowsApart (L : Ledger) : Prop :=
  ∀ row id id', (row, id) ∈ L.writes → (row, id') ∈ L.writes → id = id'

end Ledger

/-- The writer after a sequence of live notifications. -/
def ledger (toolCallJson : List Char → J → List Char) (seen : Finset (List Char))
    (us : List (ToolNotification J)) : Ledger :=
  us.foldl (Ledger.receive toolCallJson seen) {}

/-- Each id has one tool-call row, with the last title and the last raw input reported for it, and if it
reported a result it has a result row with the last one; and no row is written for two ids. -/
def KeepsOwnRows (toolCallJson : List Char → J → List Char) (us : List (ToolNotification J))
    (L : Ledger) : Prop :=
  (∀ n ∈ us, ∃ title, lastReported ToolNotification.title us n.toolCallId = some title ∧
      L.CallRow n.toolCallId (formatToolCallContent toolCallJson (sanitizeTitle title)
        (lastReported ToolNotification.rawInput us n.toolCallId))) ∧
    (∀ id, ∀ content ∈ lastReported ToolNotification.result us id,
      L.ResultRow id (stripCodeFences content)) ∧
    L.RowsApart

/-! ## The condition -/

/-- There is a `ToolCall` with the id. -/
def Announced (us : List (ToolNotification J)) (id : List Char) : Prop :=
  ∃ n ∈ us, n.isToolCall = true ∧ n.toolCallId = id

/-- Every id is announced by a `ToolCall`. -/
def CallsAnnounced (us : List (ToolNotification J)) : Prop := ∀ n ∈ us, Announced us n.toolCallId

/-- Once an input is reported for an id, the last notification that writes its row anew has an input. -/
def InputsRepeated (us : List (ToolNotification J)) : Prop :=
  ∀ id, (lastReported ToolNotification.rawInput us id).isSome →
    lastReported ToolNotification.rewrite us id ≠ some none

/-- No result comes after a result of another id with no `ToolCall` in between. -/
def ResultsSeparated (us : List (ToolNotification J)) : Prop :=
  ∀ pre n post, us = pre ++ n :: post → n.result.isSome →
    ∀ owner ∈ resultOwner pre, owner = n.toolCallId

/-! ## Reports -/

variable {id : List Char}

section Reports

variable {β : Type*} (f : ToolNotification J → Option β) (us : List (ToolNotification J))
  (n : ToolNotification J)

theorem lastReported_concat (id : List Char) :
    lastReported f (us ++ [n]) id =
      (if n.toolCallId = id then f n else none).or (lastReported f us id) := by
  rw [lastReported, List.reverse_append, List.reverse_singleton, List.singleton_append,
    List.findSome?_cons]
  cases (if n.toolCallId = id then f n else none) <;> rfl

theorem lastReported_concat_self {b : β} (h : f n = some b) :
    lastReported f (us ++ [n]) n.toolCallId = some b := by
  rw [lastReported_concat, if_pos rfl, h, Option.some_or]

theorem lastReported_concat_none (h : f n = none) (id : List Char) :
    lastReported f (us ++ [n]) id = lastReported f us id := by
  rw [lastReported_concat, h, ite_self, Option.none_or]

theorem lastReported_concat_ne (h : n.toolCallId ≠ id) :
    lastReported f (us ++ [n]) id = lastReported f us id := by
  rw [lastReported_concat, if_neg h, Option.none_or]

theorem resultOwner_concat :
    resultOwner (us ++ [n]) =
      if n.isToolCall then none else (resultOwner us).or (n.result.map fun _ => n.toolCallId) := by
  rw [resultOwner, List.foldl_append]
  rfl

theorem announced_concat (id : List Char) :
    Announced (us ++ [n]) id ↔ Announced us id ∨ (n.isToolCall = true ∧ n.toolCallId = id) := by
  simp only [Announced, List.mem_append, List.mem_singleton, or_and_right, exists_or, exists_eq_left]

/-- A notification with an input is one that writes the row anew. -/
theorem rewrite_of_rawInput {n : ToolNotification J} {input : J} (h : n.rawInput = some input) :
    n.rewrite = some (some input) := by
  rw [ToolNotification.rewrite, if_pos (.inr (by simp [h])), h]

/-- What the last rewrite reports, if it has an input, is the last input. -/
theorem lastReported_rawInput_of_rewrite {us : List (ToolNotification J)} {input : J}
    (h : lastReported ToolNotification.rewrite us id = some (some input)) :
    lastReported ToolNotification.rawInput us id = some input := by
  induction us using List.reverseRecOn with
  | nil => cases h
  | append_singleton us n ih =>
    by_cases hid : n.toolCallId = id
    · subst hid
      cases hraw : n.rawInput with
      | some input' =>
        rw [lastReported_concat_self _ _ _ (rewrite_of_rawInput hraw)] at h
        rw [lastReported_concat_self _ _ _ hraw]
        exact Option.some.inj h
      | none =>
        rw [lastReported_concat_none _ _ _ hraw]
        refine ih ?_
        cases hrw : n.rewrite with
        | none => rwa [lastReported_concat_none _ _ _ hrw] at h
        | some raw =>
          rw [lastReported_concat_self _ _ _ hrw] at h
          have : raw = n.rawInput := by
            rw [ToolNotification.rewrite] at hrw
            split at hrw
            · exact (Option.some.inj hrw).symm
            · cases hrw
          rw [this, hraw] at h
          cases h
    · rw [lastReported_concat_ne _ _ _ hid] at h ⊢
      exact ih h

end Reports

/-! ## One call -/

variable {n : ToolNotification J} {row : ℕ} {content title : List Char} {e : WriterEvent J} {rows : List SessionMessage}
    {m : SessionMessage} {stored : List Char} {w : MessageWriter}

section Calls

variable (toolCallJson : List Char → J → List Char) {seen : Finset (List Char)}

theorem toolEvents_toolCall (hid : id ∉ seen) (title : List Char) (rawInput : Option J) :
    toolEvents seen (.toolCall id title rawInput) = [.recordToolCall id title rawInput] := by
  rw [toolEvents, calls_fresh _ (by simpa [notificationToolCallId, ToolNotification.update] using hid)]
  rfl

theorem toolEvents_toolCallUpdate (hid : id ∉ seen) (title : Option (List Char))
    (rawInput : Option J) (content : Option (List ToolCallContent)) :
    toolEvents seen (.toolCallUpdate id title rawInput content) =
      (if title.isSome ∨ rawInput.isSome then [.updateToolCallTitle id title rawInput] else []) ++
        ((content.bind extractContentPreview).map WriterEvent.recordToolResult).toList := by
  rw [toolEvents, calls_fresh _ (by simpa [notificationToolCallId, ToolNotification.update] using hid)]
  simp only [ToolNotification.update, delivered, List.filterMap_append]
  congr 1
  · split <;> rfl
  · cases content.bind extractContentPreview <;> rfl

theorem MessageWriter.finalize_rows (h : w.currentText = []) : w.finalize.rows = w.rows := by
  rw [MessageWriter.finalize, MessageWriter.flushText, if_pos h]

theorem MessageWriter.finalize_toolCallRows (h : w.currentText = []) :
    w.finalize.toolCallRows = w.toolCallRows := by
  rw [MessageWriter.finalize, MessageWriter.flushText, if_pos h]

theorem getElem?_updateMessageContent_self {role : MessageRole}
    (h : HasRole rows row role) (content : List Char) :
    (updateMessageContent rows row content)[row]? = some ⟨role, content⟩ := by
  rw [HasRole, List.getElem?_map] at h
  obtain ⟨m, hm, rfl⟩ := Option.map_eq_some_iff.mp h
  rw [updateMessageContent, List.getElem?_modify, hm]
  simp

theorem getElem?_updateMessageContent_ne (rows : List SessionMessage) {row' : ℕ} (h : row ≠ row')
    (content : List Char) : (updateMessageContent rows row content)[row']? = rows[row']? := by
  rw [updateMessageContent, List.getElem?_modify]
  simp [h]

theorem getElem?_concat_of_some
    (h : rows[row]? = some m) (m' : SessionMessage) : (rows ++ [m'])[row]? = some m := by
  rw [List.getElem?_append_left (List.getElem?_eq_some_iff.mp h).1]
  exact h

theorem hasRole_of_getElem? (h : rows[row]? = some m) : HasRole rows row m.role := by
  rw [HasRole, List.getElem?_map, h]
  rfl

/-- A call leaves the rows that it does not write as they are. -/
theorem getElem?_step_of_ne (htext : w.currentText = []) (e : WriterEvent J) (hrow : w.rows[row]? = some m)
    (hne : w.writtenRow e ≠ some row) : (w.step toolCallJson (e, false)).rows[row]? = some m := by
  cases e with
  | appendText text => exact hrow
  | recordToolCall toolCallId title rawInput =>
    simp only [MessageWriter.writtenRow, MessageWriter.finalize_rows htext] at hne
    simp only [MessageWriter.step, MessageWriter.recordToolCall,
      MessageWriter.finalize_toolCallRows htext, MessageWriter.finalize_rows htext]
    cases hlook : w.toolCallRows.lookup toolCallId with
    | none => exact getElem?_concat_of_some hrow _
    | some found =>
      simp only [hlook, Option.map_some, Option.getD_some, ne_eq, Option.some.injEq] at hne
      exact (getElem?_updateMessageContent_ne _ hne _).trans hrow
  | updateToolCallTitle toolCallId title rawInput =>
    simp only [MessageWriter.writtenRow] at hne
    simp only [MessageWriter.step, MessageWriter.updateToolCallTitle]
    cases hlook : w.toolCallRows.lookup toolCallId with
    | none => exact hrow
    | some found =>
      simp only [hlook, Option.map_some, ne_eq, Option.some.injEq] at hne
      exact (getElem?_updateMessageContent_ne _ hne _).trans hrow
  | recordToolResult content =>
    simp only [MessageWriter.writtenRow] at hne
    simp only [MessageWriter.step, MessageWriter.recordToolResult]
    cases hcur : w.currentToolResultMsgId with
    | none => exact getElem?_concat_of_some hrow _
    | some current =>
      simp only [hcur, Option.getD_some, ne_eq, Option.some.injEq] at hne
      exact (getElem?_updateMessageContent_ne _ hne _).trans hrow

namespace Ledger

/-- What holds between any two calls: no text is buffered, the rows that the writer remembers have the
role they should have, and a row that was written is a result or the row of the id. -/
structure WellFormed (L : Ledger) : Prop where
  text : L.writer.currentText = []
  callRow : ∀ id row title, L.writer.toolCallRows.lookup id = some (row, title) →
    HasRole L.writer.rows row .toolCall ∧ (row, id) ∈ L.writes
  result : ∀ row, L.writer.currentToolResultMsgId = some row → HasRole L.writer.rows row .toolResult
  written : ∀ row id, (row, id) ∈ L.writes →
    (∃ title, L.writer.toolCallRows.lookup id = some (row, title)) ∨
      HasRole L.writer.rows row .toolResult
  callRowsApart : ∀ id id' row title title', L.writer.toolCallRows.lookup id = some (row, title) →
    L.writer.toolCallRows.lookup id' = some (row, title') → id = id'

variable {L : Ledger}

theorem wellFormed_new : WellFormed {} :=
  { text := rfl
    callRow := fun id row title h => by cases h
    result := fun row h => by cases h
    written := fun row id h => by cases h
    callRowsApart := fun id id' row title title' h => by cases h }

namespace WellFormed

/-- Only rows that exist have been written. -/
theorem written_lt (h : L.WellFormed) (hw : (row, id) ∈ L.writes) : row < L.writer.rows.length := by
  rcases h.written row id hw with ⟨title, hlook⟩ | hrole
  · exact (h.callRow id row title hlook).1.lt
  · exact hrole.lt

/-- The row of a call is written for its id only. -/
theorem id_of_callRow (h : L.WellFormed) {id' : List Char}
    (hlook : L.writer.toolCallRows.lookup id = some (row, title)) (hw : (row, id') ∈ L.writes) :
    id' = id := by
  rcases h.written row id' hw with ⟨title', hlook'⟩ | hrole
  · exact h.callRowsApart id' id row title' title hlook' hlook
  · exact absurd ((h.callRow id row title hlook).1.unique hrole) (by decide)

/-- The row of a call is written again. -/
theorem rewrite (h : L.WellFormed)
    (hlook : L.writer.toolCallRows.lookup id = some (row, title)) (title' content : List Char)
    (assistant result : Option ℕ)
    (hresult : ∀ row, result = some row → L.writer.currentToolResultMsgId = some row) :
    WellFormed
      { writer := {
          rows := updateMessageContent L.writer.rows row content
          currentAssistantMsgId := assistant
          currentText := []
          toolCallRows := L.writer.toolCallRows.insert id (row, title')
          currentToolResultMsgId := result }
        writes := L.writes ++ [(row, id)] } := by
  have hrow := h.callRow id row title hlook
  -- an entry of the new table is an old one, up to the title
  have hentry : ∀ id' row' t, (L.writer.toolCallRows.insert id (row, title')).lookup id' =
      some (row', t) → ∃ t', L.writer.toolCallRows.lookup id' = some (row', t') := by
    intro id' row' t hlook'
    by_cases heq : id' = id
    · subst heq
      rw [AList.lookup_insert, Option.some.injEq, Prod.mk.injEq] at hlook'
      exact ⟨title, hlook'.1 ▸ hlook⟩
    · rw [AList.lookup_insert_ne heq] at hlook'
      exact ⟨t, hlook'⟩
  refine ⟨rfl, ?_, ?_, ?_, ?_⟩
  · intro id' row' t hlook'
    obtain ⟨t', ht'⟩ := hentry id' row' t hlook'
    have hold := h.callRow id' row' t' ht'
    exact ⟨hold.1.mono (roles_prefix_update _ _ _), List.mem_append_left _ hold.2⟩
  · intro row' hcur
    exact (h.result row' (hresult row' hcur)).mono (roles_prefix_update _ _ _)
  · intro row' id' hw
    by_cases heq : id' = id
    · subst heq
      rcases List.mem_append.mp hw with hw | hw
      · rcases h.written row' id' hw with ⟨t, ht⟩ | hrole
        · rw [hlook, Option.some.injEq, Prod.mk.injEq] at ht
          exact .inl ⟨title', ht.1 ▸ AList.lookup_insert _⟩
        · exact .inr (hrole.mono (roles_prefix_update _ _ _))
      · obtain rfl : row' = row := (Prod.mk.inj (List.mem_singleton.mp hw)).1
        exact .inl ⟨title', AList.lookup_insert _⟩
    · have hold : (row', id') ∈ L.writes := by
        rcases List.mem_append.mp hw with hw | hw
        · exact hw
        · exact absurd (Prod.mk.inj (List.mem_singleton.mp hw)).2 heq
      rcases h.written row' id' hold with ⟨t, ht⟩ | hrole
      · exact .inl ⟨t, (AList.lookup_insert_ne heq).trans ht⟩
      · exact .inr (hrole.mono (roles_prefix_update _ _ _))
  · intro id₁ id₂ row' t₁ t₂ h₁ h₂
    obtain ⟨t₁', h₁'⟩ := hentry id₁ row' t₁ h₁
    obtain ⟨t₂', h₂'⟩ := hentry id₂ row' t₂ h₂
    exact h.callRowsApart id₁ id₂ row' t₁' t₂' h₁' h₂'

/-- The row of a new call is inserted. -/
theorem insertCall (h : L.WellFormed)
    (hlook : L.writer.toolCallRows.lookup id = none) (title content : List Char)
    (assistant : Option ℕ) :
    WellFormed
      { writer := {
          rows := L.writer.rows ++ [⟨.toolCall, content⟩]
          currentAssistantMsgId := assistant
          currentText := []
          toolCallRows := L.writer.toolCallRows.insert id (L.writer.rows.length, title)
          currentToolResultMsgId := none }
        writes := L.writes ++ [(L.writer.rows.length, id)] } := by
  refine ⟨rfl, ?_, ?_, ?_, ?_⟩
  · intro id' row' t hlook'
    by_cases heq : id' = id
    · subst heq
      rw [AList.lookup_insert, Option.some.injEq, Prod.mk.injEq] at hlook'
      obtain ⟨rfl, rfl⟩ := hlook'
      exact ⟨hasRole_concat _ _, List.mem_append_right _ (List.mem_singleton.mpr rfl)⟩
    · rw [AList.lookup_insert_ne heq] at hlook'
      have hold := h.callRow id' row' t hlook'
      exact ⟨hold.1.mono (roles_prefix_concat _ _), List.mem_append_left _ hold.2⟩
  · intro row' hcur
    cases hcur
  · intro row' id' hw
    rcases List.mem_append.mp hw with hw | hw
    · rcases h.written row' id' hw with ⟨t, ht⟩ | hrole
      -- a call that was written before has a row, the new one has none
      · have hne : id' ≠ id := by
          rintro rfl
          rw [hlook] at ht
          cases ht
        exact .inl ⟨t, (AList.lookup_insert_ne hne).trans ht⟩
      · exact .inr (hrole.mono (roles_prefix_concat _ _))
    · obtain ⟨rfl, rfl⟩ := Prod.mk.inj (List.mem_singleton.mp hw)
      exact .inl ⟨title, AList.lookup_insert _⟩
  · -- the new row has a number that no other row has
    have hnew : ∀ id' row' t, id' ≠ id →
        (L.writer.toolCallRows.insert id (L.writer.rows.length, title)).lookup id' =
          some (row', t) →
        row' < L.writer.rows.length ∧ L.writer.toolCallRows.lookup id' = some (row', t) := by
      intro id' row' t hne hlook'
      rw [AList.lookup_insert_ne hne] at hlook'
      exact ⟨(h.callRow id' row' t hlook').1.lt, hlook'⟩
    intro id₁ id₂ row' t₁ t₂ h₁ h₂
    by_cases heq₁ : id₁ = id
    · by_cases heq₂ : id₂ = id
      · exact heq₁.trans heq₂.symm
      · subst heq₁
        rw [AList.lookup_insert, Option.some.injEq, Prod.mk.injEq] at h₁
        have := (hnew id₂ row' t₂ heq₂ h₂).1
        omega
    · by_cases heq₂ : id₂ = id
      · subst heq₂
        rw [AList.lookup_insert, Option.some.injEq, Prod.mk.injEq] at h₂
        have := (hnew id₁ row' t₁ heq₁ h₁).1
        omega
      · exact h.callRowsApart id₁ id₂ row' t₁ t₂ (hnew id₁ row' t₁ heq₁ h₁).2
          (hnew id₂ row' t₂ heq₂ h₂).2

/-- A result is written, into the row `row` of `rows'`. -/
theorem writeResult (h : L.WellFormed) (id : List Char) {rows' : List SessionMessage}
    (hpre : L.writer.rows.map SessionMessage.role <+: rows'.map SessionMessage.role)
    (hrow : HasRole rows' row .toolResult) :
    WellFormed
      { writer := { L.writer with rows := rows', currentToolResultMsgId := some row }
        writes := L.writes ++ [(row, id)] } := by
  refine ⟨h.text, ?_, ?_, ?_, h.callRowsApart⟩
  · intro id' row' t hlook
    have hold := h.callRow id' row' t hlook
    exact ⟨hold.1.mono hpre, List.mem_append_left _ hold.2⟩
  · intro row' hcur
    obtain rfl : row = row' := Option.some.inj hcur
    exact hrow
  · intro row' id' hw
    rcases List.mem_append.mp hw with hw | hw
    · rcases h.written row' id' hw with hcall | hrole
      · exact .inl hcall
      · exact .inr (hrole.mono hpre)
    · obtain rfl : row' = row := (Prod.mk.inj (List.mem_singleton.mp hw)).1
      exact .inr hrow

end WellFormed

/-! ### What each call does -/

theorem call_recordToolCall_of_some (h : L.WellFormed)
    (hlook : L.writer.toolCallRows.lookup id = some (row, stored)) (title : List Char)
    (rawInput : Option J) :
    L.call toolCallJson id (.recordToolCall id title rawInput) =
      { writer := {
          rows := updateMessageContent L.writer.rows row
            (formatToolCallContent toolCallJson (sanitizeTitle title) rawInput)
          currentAssistantMsgId := none
          currentText := []
          toolCallRows := L.writer.toolCallRows.insert id (row, sanitizeTitle title)
          currentToolResultMsgId := none }
        writes := L.writes ++ [(row, id)] } := by
  simp only [call, MessageWriter.writtenRow, MessageWriter.step, MessageWriter.recordToolCall,
    MessageWriter.finalize_toolCallRows h.text, MessageWriter.finalize_rows h.text, hlook]
  rfl

theorem call_recordToolCall_of_none (h : L.WellFormed)
    (hlook : L.writer.toolCallRows.lookup id = none) (title : List Char) (rawInput : Option J) :
    L.call toolCallJson id (.recordToolCall id title rawInput) =
      { writer := {
          rows := L.writer.rows ++
            [⟨.toolCall, formatToolCallContent toolCallJson (sanitizeTitle title) rawInput⟩]
          currentAssistantMsgId := none
          currentText := []
          toolCallRows := L.writer.toolCallRows.insert id (L.writer.rows.length, sanitizeTitle title)
          currentToolResultMsgId := none }
        writes := L.writes ++ [(L.writer.rows.length, id)] } := by
  simp only [call, MessageWriter.writtenRow, MessageWriter.step, MessageWriter.recordToolCall,
    MessageWriter.finalize_toolCallRows h.text, MessageWriter.finalize_rows h.text, hlook]
  rfl

theorem call_updateToolCallTitle_of_some (h : L.WellFormed)
    (hlook : L.writer.toolCallRows.lookup id = some (row, stored)) (title : Option (List Char))
    (rawInput : Option J) :
    L.call toolCallJson id (.updateToolCallTitle id title rawInput) =
      { writer := {
          rows := updateMessageContent L.writer.rows row
            (formatToolCallContent toolCallJson ((title.map sanitizeTitle).getD stored) rawInput)
          currentAssistantMsgId := L.writer.currentAssistantMsgId
          currentText := []
          toolCallRows :=
            L.writer.toolCallRows.insert id (row, (title.map sanitizeTitle).getD stored)
          currentToolResultMsgId := L.writer.currentToolResultMsgId }
        writes := L.writes ++ [(row, id)] } := by
  simp only [call, MessageWriter.writtenRow, MessageWriter.step, MessageWriter.updateToolCallTitle,
    hlook, h.text]
  rfl

theorem call_updateToolCallTitle_of_none
    (hlook : L.writer.toolCallRows.lookup id = none) (title : Option (List Char))
    (rawInput : Option J) : L.call toolCallJson id (.updateToolCallTitle id title rawInput) = L := by
  simp only [call, MessageWriter.writtenRow, MessageWriter.step, MessageWriter.updateToolCallTitle,
    hlook, Option.map_none, Option.toList_none, List.map_nil, List.append_nil]

theorem call_recordToolResult_of_some
    (hcur : L.writer.currentToolResultMsgId = some row) (id content : List Char) :
    L.call toolCallJson id (.recordToolResult content) =
      { writer := { L.writer with
          rows := updateMessageContent L.writer.rows row (stripCodeFences content)
          currentToolResultMsgId := some row }
        writes := L.writes ++ [(row, id)] } := by
  simp only [call, MessageWriter.writtenRow, MessageWriter.step, MessageWriter.recordToolResult, hcur]
  rfl

theorem call_recordToolResult_of_none (hcur : L.writer.currentToolResultMsgId = none)
    (id content : List Char) :
    L.call toolCallJson id (.recordToolResult content) =
      { writer := { L.writer with
          rows := L.writer.rows ++ [⟨.toolResult, stripCodeFences content⟩]
          currentToolResultMsgId := some L.writer.rows.length }
        writes := L.writes ++ [(L.writer.rows.length, id)] } := by
  simp only [call, MessageWriter.writtenRow, MessageWriter.step, MessageWriter.recordToolResult, hcur]
  rfl

namespace WellFormed

theorem recordToolCall (h : L.WellFormed) (id title : List Char) (rawInput : Option J) :
    (L.call toolCallJson id (.recordToolCall id title rawInput)).WellFormed := by
  rcases hlook : L.writer.toolCallRows.lookup id with _ | ⟨row, stored⟩
  · rw [call_recordToolCall_of_none toolCallJson h hlook]
    exact h.insertCall hlook _ _ _
  · rw [call_recordToolCall_of_some toolCallJson h hlook]
    exact h.rewrite hlook _ _ _ _ (by simp)

theorem updateToolCallTitle (h : L.WellFormed) (id : List Char) (title : Option (List Char))
    (rawInput : Option J) :
    (L.call toolCallJson id (.updateToolCallTitle id title rawInput)).WellFormed := by
  rcases hlook : L.writer.toolCallRows.lookup id with _ | ⟨row, stored⟩
  · rw [call_updateToolCallTitle_of_none toolCallJson hlook]
    exact h
  · rw [call_updateToolCallTitle_of_some toolCallJson h hlook]
    exact h.rewrite hlook _ _ _ _ fun row hrow => hrow

theorem recordToolResult (h : L.WellFormed) (id content : List Char) :
    (L.call toolCallJson id (.recordToolResult content : WriterEvent J)).WellFormed := by
  rcases hcur : L.writer.currentToolResultMsgId with _ | row
  · rw [call_recordToolResult_of_none toolCallJson hcur]
    exact h.writeResult id (roles_prefix_concat _ _) (hasRole_concat _ _)
  · rw [call_recordToolResult_of_some toolCallJson hcur]
    exact h.writeResult id (roles_prefix_update _ _ _)
      ((h.result row hcur).mono (roles_prefix_update _ _ _))

end WellFormed

/-! ### The rows of calls -/

/-- The rows of the calls show what was reported last. The title survives an update without one, but the
input is that of the last rewrite. -/
structure CallsShown (us : List (ToolNotification J)) (L : Ledger) : Prop where
  announced : ∀ id, L.writer.toolCallRows.lookup id = none ↔ ¬ Announced us id
  shown : ∀ id row title, L.writer.toolCallRows.lookup id = some (row, title) →
    (lastReported ToolNotification.title us id).map sanitizeTitle = some title ∧
      ∃ rawInput, lastReported ToolNotification.rewrite us id = some rawInput ∧
        L.writer.rows[row]? =
          some ⟨.toolCall, formatToolCallContent toolCallJson title rawInput⟩

namespace CallsShown

variable {toolCallJson} {us : List (ToolNotification J)}

theorem new : CallsShown toolCallJson [] {} :=
  { announced := fun id => by simp [Announced]
    shown := fun id row title h => by cases h }

/-- The row of a call is written again because of `n`. -/
theorem rewrite (h : CallsShown toolCallJson us L) (hwf : L.WellFormed)
    (hlook : L.writer.toolCallRows.lookup n.toolCallId = some (row, stored))
    (hn : n.rewrite = some n.rawInput) (assistant result : Option ℕ)
    (writes : List (ℕ × List Char))
    (htitle : (n.title.map sanitizeTitle).getD stored = title) :
    CallsShown toolCallJson (us ++ [n])
      { writer := {
          rows := updateMessageContent L.writer.rows row
            (formatToolCallContent toolCallJson title n.rawInput)
          currentAssistantMsgId := assistant
          currentText := []
          toolCallRows := L.writer.toolCallRows.insert n.toolCallId (row, title)
          currentToolResultMsgId := result }
        writes := writes } := by
  constructor
  · intro id
    by_cases heq : n.toolCallId = id
    · subst heq
      have hsome : ¬ ¬ Announced us n.toolCallId := by
        rw [← h.announced n.toolCallId, hlook]
        simp
      rw [AList.lookup_insert, announced_concat]
      exact iff_of_false (by simp) fun hnot => hsome fun hann => hnot (.inl hann)
    · rw [AList.lookup_insert_ne (Ne.symm heq), h.announced id, announced_concat]
      simp [heq]
  · intro id row' title' hlook'
    by_cases heq : n.toolCallId = id
    · subst heq
      rw [AList.lookup_insert, Option.some.injEq, Prod.mk.injEq] at hlook'
      obtain ⟨rfl, rfl⟩ := hlook'
      refine ⟨?_, n.rawInput, lastReported_concat_self _ _ _ hn, ?_⟩
      · rcases hreported : n.title with _ | reported
        · rw [lastReported_concat_none _ _ _ hreported, (h.shown _ _ _ hlook).1, ← htitle, hreported]
          rfl
        · rw [lastReported_concat_self _ _ _ hreported, ← htitle, hreported]
          rfl
      · exact getElem?_updateMessageContent_self (hwf.callRow _ _ _ hlook).1 _
    · rw [AList.lookup_insert_ne (Ne.symm heq)] at hlook'
      obtain ⟨htitle', rawInput, hraw, hrow⟩ := h.shown id row' title' hlook'
      refine ⟨by rwa [lastReported_concat_ne _ _ _ heq], rawInput,
        by rwa [lastReported_concat_ne _ _ _ heq], ?_⟩
      have hne : row ≠ row' := by
        rintro rfl
        exact heq (hwf.callRowsApart _ _ _ _ _ hlook hlook')
      exact (getElem?_updateMessageContent_ne _ hne _).trans hrow

/-- The row of a new call is inserted. -/
theorem insertCall (h : CallsShown toolCallJson us L)
    {rawInput : Option J} (hlook : L.writer.toolCallRows.lookup id = none) (assistant : Option ℕ)
    (writes : List (ℕ × List Char)) :
    CallsShown toolCallJson (us ++ [.toolCall id title rawInput])
      { writer := {
          rows := L.writer.rows ++
            [⟨.toolCall, formatToolCallContent toolCallJson (sanitizeTitle title) rawInput⟩]
          currentAssistantMsgId := assistant
          currentText := []
          toolCallRows := L.writer.toolCallRows.insert id (L.writer.rows.length, sanitizeTitle title)
          currentToolResultMsgId := none }
        writes := writes } := by
  set n : ToolNotification J := .toolCall id title rawInput with hn
  constructor
  · intro id'
    by_cases heq : id' = id
    · subst heq
      rw [AList.lookup_insert, announced_concat]
      exact iff_of_false (by simp) fun hnot => hnot (.inr ⟨rfl, rfl⟩)
    · rw [AList.lookup_insert_ne heq, h.announced id', announced_concat]
      have hne : n.toolCallId ≠ id' := Ne.symm heq
      simp [hne]
  · intro id' row' title' hlook'
    by_cases heq : id' = id
    · subst heq
      rw [AList.lookup_insert, Option.some.injEq, Prod.mk.injEq] at hlook'
      obtain ⟨rfl, rfl⟩ := hlook'
      have htitle : lastReported ToolNotification.title (us ++ [n]) id' = some title :=
        lastReported_concat_self ToolNotification.title us n rfl
      have hrewrite : lastReported ToolNotification.rewrite (us ++ [n]) id' = some rawInput :=
        lastReported_concat_self ToolNotification.rewrite us n rfl
      refine ⟨by rw [htitle]; rfl, rawInput, hrewrite, ?_⟩
      simp
    · rw [AList.lookup_insert_ne heq] at hlook'
      have hne : n.toolCallId ≠ id' := Ne.symm heq
      obtain ⟨htitle, raw, hraw, hrow⟩ := h.shown id' row' title' hlook'
      exact ⟨by rwa [lastReported_concat_ne _ _ _ hne], raw,
        by rwa [lastReported_concat_ne _ _ _ hne], getElem?_concat_of_some hrow _⟩

/-- An update that does not write the row, because it reports nothing or because there is no row. -/
theorem skip (h : CallsShown toolCallJson us L) (hn : n.isToolCall = false)
    (hskip : (n.title = none ∧ n.rewrite = none) ∨ L.writer.toolCallRows.lookup n.toolCallId = none) :
    CallsShown toolCallJson (us ++ [n]) L := by
  constructor
  · intro id
    rw [h.announced id, announced_concat]
    simp [hn]
  · intro id row title hlook
    obtain ⟨htitle, raw, hraw, hrow⟩ := h.shown id row title hlook
    rcases hskip with ⟨hnone, hrewrite⟩ | hnolook
    · exact ⟨by rwa [lastReported_concat_none _ _ _ hnone], raw,
        by rwa [lastReported_concat_none _ _ _ hrewrite], hrow⟩
    · have hne : n.toolCallId ≠ id := by
        rintro rfl
        rw [hlook] at hnolook
        cases hnolook
      exact ⟨by rwa [lastReported_concat_ne _ _ _ hne], raw,
        by rwa [lastReported_concat_ne _ _ _ hne], hrow⟩

/-- A result is not written into the row of a call. -/
theorem recordToolResult (h : CallsShown toolCallJson us L) (hwf : L.WellFormed)
    (id content : List Char) :
    CallsShown toolCallJson us (L.call toolCallJson id (.recordToolResult content)) := by
  have htable : (L.call toolCallJson id (.recordToolResult content)).writer.toolCallRows =
      L.writer.toolCallRows := by
    rcases hcur : L.writer.currentToolResultMsgId with _ | row
    · rw [call_recordToolResult_of_none toolCallJson hcur]
    · rw [call_recordToolResult_of_some toolCallJson hcur]
  constructor
  · intro id'
    rw [htable]
    exact h.announced id'
  · intro id' row title hlook
    rw [htable] at hlook
    obtain ⟨htitle, raw, hraw, hrow⟩ := h.shown id' row title hlook
    refine ⟨htitle, raw, hraw, getElem?_step_of_ne toolCallJson hwf.text _ hrow fun hw => ?_⟩
    simp only [MessageWriter.writtenRow, Option.some.injEq] at hw
    have hrole := (hwf.callRow id' row title hlook).1
    rcases hcur : L.writer.currentToolResultMsgId with _ | current
    · rw [hcur, Option.getD_none] at hw
      exact absurd hrole.lt (by omega)
    · rw [hcur, Option.getD_some] at hw
      exact absurd (hrole.unique (hw ▸ hwf.result current hcur)) (by decide)

/-- A `ToolCall`. -/
theorem recordToolCall (h : CallsShown toolCallJson us L) (hwf : L.WellFormed)
    (id title : List Char) (rawInput : Option J) :
    CallsShown toolCallJson (us ++ [.toolCall id title rawInput])
      (L.call toolCallJson id (.recordToolCall id title rawInput)) := by
  rcases hlook : L.writer.toolCallRows.lookup id with _ | ⟨row, stored⟩
  · rw [call_recordToolCall_of_none toolCallJson hwf hlook]
    exact h.insertCall hlook _ _
  · rw [call_recordToolCall_of_some toolCallJson hwf hlook]
    exact h.rewrite (n := .toolCall id title rawInput) hwf hlook rfl _ _ _ rfl

/-- An update that reports a title or an input. -/
theorem updateToolCallTitle (h : CallsShown toolCallJson us L) (hwf : L.WellFormed) (id : List Char)
    {title : Option (List Char)} {rawInput : Option J} (content : Option (List ToolCallContent))
    (hreport : title.isSome ∨ rawInput.isSome) :
    CallsShown toolCallJson (us ++ [.toolCallUpdate id title rawInput content])
      (L.call toolCallJson id (.updateToolCallTitle id title rawInput)) := by
  rcases hlook : L.writer.toolCallRows.lookup id with _ | ⟨row, stored⟩
  · rw [call_updateToolCallTitle_of_none toolCallJson hlook]
    exact h.skip rfl (.inr hlook)
  · rw [call_updateToolCallTitle_of_some toolCallJson hwf hlook]
    exact h.rewrite (n := .toolCallUpdate id title rawInput content) hwf hlook (if_pos hreport) _ _ _
      rfl

end CallsShown

/-! ### The rows of results -/

/-- The row that is open for results was first written for the id whose result came first. -/
structure OpenResult (us : List (ToolNotification J)) (L : Ledger) : Prop where
  closed : L.writer.currentToolResultMsgId = none → resultOwner us = none
  opened : ∀ row, L.writer.currentToolResultMsgId = some row →
    ∃ owner, resultOwner us = some owner ∧ (row, owner) ∈ L.writes

/-- Each id has a row with its last result, and no other id writes there. -/
structure ResultsKept (us : List (ToolNotification J)) (L : Ledger) : Prop where
  apart : L.RowsApart
  results : ∀ id, ∀ content ∈ lastReported ToolNotification.result us id,
    L.ResultRow id (stripCodeFences content)

/-- Writes are only added. -/
theorem mem_writes_call (h : (row, id) ∈ L.writes) (id' : List Char)
    (e : WriterEvent J) : (row, id) ∈ (L.call toolCallJson id' e).writes :=
  List.mem_append_left _ h

/-- A call writes for its id. -/
theorem mem_writes_call_self (h : L.writer.writtenRow e = some row)
    (id : List Char) : (row, id) ∈ (L.call toolCallJson id e).writes := by
  simp [call, h]

theorem RowsApart.call (h : L.RowsApart)
    (hrow : ∀ row, L.writer.writtenRow e = some row → ∀ id', (row, id') ∈ L.writes → id' = id) :
    (L.call toolCallJson id e).RowsApart := by
  intro row id₁ id₂ h₁ h₂
  rcases hw : L.writer.writtenRow e with _ | row'
  · simp only [Ledger.call, hw, Option.toList_none, List.map_nil, List.append_nil] at h₁ h₂
    exact h row id₁ id₂ h₁ h₂
  · simp only [Ledger.call, hw, Option.toList_some, List.map_cons, List.map_nil, List.mem_append,
      List.mem_singleton, Prod.mk.injEq] at h₁ h₂
    rcases h₁ with h₁ | ⟨rfl, rfl⟩
    · rcases h₂ with h₂ | ⟨rfl, rfl⟩
      · exact h row id₁ id₂ h₁ h₂
      · exact hrow row hw id₁ h₁
    · rcases h₂ with h₂ | ⟨-, rfl⟩
      · exact (hrow row hw id₂ h₂).symm
      · rfl

/-- A result row stays as it is when a call writes another row. -/
theorem ResultRow.call {id' : List Char} (h : L.ResultRow id' content) (hwf : L.WellFormed) (id : List Char)
    (hne : ∀ row, (row, id') ∈ L.writes → HasRole L.writer.rows row .toolResult →
      L.writer.writtenRow e ≠ some row) : (L.call toolCallJson id e).ResultRow id' content := by
  obtain ⟨row, hmem, hrow⟩ := h
  refine ⟨row, mem_writes_call toolCallJson hmem _ _, ?_⟩
  exact getElem?_step_of_ne toolCallJson hwf.text e hrow (hne row hmem (hasRole_of_getElem? hrow))

namespace ResultsKept

variable {us : List (ToolNotification J)} {toolCallJson}

theorem new : ResultsKept (J := J) [] {} :=
  { apart := fun row id id' h => by cases h
    results := fun id content h => by cases h }

/-- A notification without a result. -/
theorem skip (h : ResultsKept us L) (hn : n.result = none) : ResultsKept (us ++ [n]) L :=
  { apart := h.apart
    results := fun id content hc => by
      rw [lastReported_concat_none _ _ _ hn] at hc
      exact h.results id content hc }

/-- A call that writes no result row, and no row of another id. -/
theorem call (h : ResultsKept us L) (hwf : L.WellFormed) (hrow : ∀ row, L.writer.writtenRow e = some row →
      ¬ HasRole L.writer.rows row .toolResult ∧ ∀ id', (row, id') ∈ L.writes → id' = id) :
    ResultsKept us (L.call toolCallJson id e) := by
  refine ⟨h.apart.call toolCallJson fun row hw => (hrow row hw).2, fun id' content hc => ?_⟩
  refine (h.results id' content hc).call toolCallJson hwf id fun row _ hrole hw => ?_
  exact (hrow row hw).1 hrole

theorem recordToolCall (h : ResultsKept us L) (hwf : L.WellFormed) (id title : List Char)
    (rawInput : Option J) :
    ResultsKept us (L.call toolCallJson id (.recordToolCall id title rawInput)) := by
  refine h.call hwf fun row hw => ?_
  simp only [MessageWriter.writtenRow, MessageWriter.finalize_rows hwf.text, Option.some.injEq] at hw
  rcases hlook : L.writer.toolCallRows.lookup id with _ | ⟨found, stored⟩
  · rw [hlook, Option.map_none, Option.getD_none] at hw
    subst hw
    exact ⟨fun hrole => absurd hrole.lt (by omega),
      fun id' hmem => absurd (hwf.written_lt hmem) (by omega)⟩
  · rw [hlook, Option.map_some, Option.getD_some] at hw
    subst hw
    refine ⟨fun hrole => ?_, fun id' hmem => hwf.id_of_callRow hlook hmem⟩
    exact absurd ((hwf.callRow id _ stored hlook).1.unique hrole) (by decide)

theorem updateToolCallTitle (h : ResultsKept us L) (hwf : L.WellFormed) (id : List Char)
    (title : Option (List Char)) (rawInput : Option J) :
    ResultsKept us (L.call toolCallJson id (.updateToolCallTitle id title rawInput)) := by
  refine h.call hwf fun row hw => ?_
  simp only [MessageWriter.writtenRow, Option.map_eq_some_iff] at hw
  obtain ⟨⟨found, stored⟩, hlook, rfl⟩ := hw
  refine ⟨fun hrole => ?_, fun id' hmem => hwf.id_of_callRow hlook hmem⟩
  exact absurd ((hwf.callRow id _ stored hlook).1.unique hrole) (by decide)

/-- A result whose row, if one is open, is the row of the same id. -/
theorem recordToolResult (h : ResultsKept us L) (hwf : L.WellFormed) (hopen : OpenResult us L)
    (hn : n.result = some content)
    (hsep : ∀ owner ∈ resultOwner us, owner = n.toolCallId) :
    ResultsKept (us ++ [n])
      (L.call toolCallJson n.toolCallId (.recordToolResult content)) := by
  have hown : ∀ row, L.writer.writtenRow (.recordToolResult content : WriterEvent J) = some row →
      ∀ id', (row, id') ∈ L.writes → id' = n.toolCallId := by
    intro row hw id' hmem
    simp only [MessageWriter.writtenRow, Option.some.injEq] at hw
    rcases hcur : L.writer.currentToolResultMsgId with _ | current
    · rw [hcur, Option.getD_none] at hw
      exact absurd (hwf.written_lt hmem) (by omega)
    · rw [hcur, Option.getD_some] at hw
      subst hw
      obtain ⟨owner, howner, hwrite⟩ := hopen.opened current hcur
      exact (h.apart current id' owner hmem hwrite).trans (hsep owner howner)
  refine ⟨h.apart.call toolCallJson hown, fun id' content' hc => ?_⟩
  by_cases hid : n.toolCallId = id'
  · subst hid
    rw [lastReported_concat_self _ _ _ hn] at hc
    obtain rfl : content = content' := Option.some.inj hc
    rcases hcur : L.writer.currentToolResultMsgId with _ | current
    · rw [call_recordToolResult_of_none toolCallJson hcur]
      exact ⟨L.writer.rows.length, List.mem_append_right _ (List.mem_singleton.mpr rfl), by simp⟩
    · rw [call_recordToolResult_of_some toolCallJson hcur]
      exact ⟨current, List.mem_append_right _ (List.mem_singleton.mpr rfl),
        getElem?_updateMessageContent_self (hwf.result current hcur) _⟩
  · rw [lastReported_concat_ne _ _ _ hid] at hc
    refine (h.results id' content' hc).call toolCallJson hwf _ fun row hmem _ hw => ?_
    exact hid (hown row hw id' hmem).symm

end ResultsKept

namespace OpenResult

variable {us : List (ToolNotification J)} {toolCallJson}

theorem new : OpenResult (J := J) [] {} :=
  { closed := fun _ => rfl
    opened := fun row h => by cases h }

theorem recordToolCall (hwf : L.WellFormed) (id title : List Char) (rawInput : Option J) :
    OpenResult (us ++ [.toolCall id title rawInput])
      (L.call toolCallJson id (.recordToolCall id title rawInput)) := by
  have hcur : (L.call toolCallJson id
      (.recordToolCall id title rawInput)).writer.currentToolResultMsgId = none := by
    rcases hlook : L.writer.toolCallRows.lookup id with _ | ⟨row, stored⟩
    · rw [call_recordToolCall_of_none toolCallJson hwf hlook]
    · rw [call_recordToolCall_of_some toolCallJson hwf hlook]
  refine ⟨fun _ => ?_, fun row hrow => ?_⟩
  · rw [resultOwner_concat]
    rfl
  · rw [hcur] at hrow
    cases hrow

theorem updateToolCallTitle (h : OpenResult us L) (hwf : L.WellFormed) (id : List Char)
    (title : Option (List Char)) (rawInput : Option J) :
    OpenResult us (L.call toolCallJson id (.updateToolCallTitle id title rawInput)) := by
  rcases hlook : L.writer.toolCallRows.lookup id with _ | ⟨row, stored⟩
  · rw [call_updateToolCallTitle_of_none toolCallJson hlook]
    exact h
  · rw [call_updateToolCallTitle_of_some toolCallJson hwf hlook]
    refine ⟨h.closed, fun row' hrow => ?_⟩
    obtain ⟨owner, howner, hmem⟩ := h.opened row' hrow
    exact ⟨owner, howner, List.mem_append_left _ hmem⟩

theorem skip (h : OpenResult us L) (hn : n.isToolCall = false)
    (hresult : n.result = none) : OpenResult (us ++ [n]) L := by
  have howner : resultOwner (us ++ [n]) = resultOwner us := by
    rw [resultOwner_concat, hn, hresult]
    simp
  refine ⟨fun hcur => howner.trans (h.closed hcur), fun row hrow => ?_⟩
  rw [howner]
  exact h.opened row hrow

theorem recordToolResult (h : OpenResult us L) (htool : n.isToolCall = false) (hn : n.result = some content) :
    OpenResult (us ++ [n]) (L.call toolCallJson n.toolCallId (.recordToolResult content)) := by
  have howner : resultOwner (us ++ [n]) = (resultOwner us).or (some n.toolCallId) := by
    rw [resultOwner_concat, htool, hn]
    simp
  rcases hcur : L.writer.currentToolResultMsgId with _ | current
  · rw [h.closed hcur, Option.none_or] at howner
    rw [call_recordToolResult_of_none toolCallJson hcur]
    refine ⟨fun hnone => (by cases hnone), fun row hrow => ⟨n.toolCallId, howner, ?_⟩⟩
    obtain rfl : L.writer.rows.length = row := Option.some.inj hrow
    exact List.mem_append_right _ (List.mem_singleton.mpr rfl)
  · obtain ⟨owner, hown, hmem⟩ := h.opened current hcur
    rw [hown, Option.some_or] at howner
    rw [call_recordToolResult_of_some toolCallJson hcur]
    refine ⟨fun hnone => (by cases hnone), fun row hrow => ⟨owner, howner, ?_⟩⟩
    obtain rfl : current = row := Option.some.inj hrow
    exact List.mem_append_left _ hmem

end OpenResult

/-! ### One notification -/

section Receive

variable {us : List (ToolNotification J)} {toolCallJson}

theorem receive_toolCall (hid : id ∉ seen) (title : List Char) (rawInput : Option J) :
    L.receive toolCallJson seen (.toolCall id title rawInput) =
      L.call toolCallJson id (.recordToolCall id title rawInput) := by
  rw [receive, toolEvents_toolCall hid]
  rfl

theorem receive_toolCallUpdate (hid : id ∉ seen) (title : Option (List Char))
    (rawInput : Option J) (content : Option (List ToolCallContent)) :
    L.receive toolCallJson seen (.toolCallUpdate id title rawInput content) =
      let L₁ := if title.isSome ∨ rawInput.isSome then
        L.call toolCallJson id (.updateToolCallTitle id title rawInput) else L
      (content.bind extractContentPreview).elim L₁ fun preview =>
        L₁.call toolCallJson id (.recordToolResult preview) := by
  rw [receive, toolEvents_toolCallUpdate hid, List.foldl_append]
  rcases content.bind extractContentPreview with _ | preview
  · split <;> rfl
  · split <;> rfl

/-- What holds after every sequence of notifications. -/
structure Tracks (toolCallJson : List Char → J → List Char) (us : List (ToolNotification J))
    (L : Ledger) : Prop where
  wellFormed : L.WellFormed
  calls : CallsShown toolCallJson us L
  openResult : OpenResult us L

/-- The first half of an update, with its title and its input. -/
theorem tracks_title (h : Tracks toolCallJson us L) (id : List Char) (title : Option (List Char))
    (rawInput : Option J) (content : Option (List ToolCallContent)) :
    let L₁ := if title.isSome ∨ rawInput.isSome then
      L.call toolCallJson id (.updateToolCallTitle id title rawInput) else L
    L₁.WellFormed ∧ CallsShown toolCallJson (us ++ [.toolCallUpdate id title rawInput content]) L₁ ∧
      OpenResult us L₁ ∧ (ResultsKept us L → ResultsKept us L₁) := by
  dsimp only
  split
  · rename_i hreport
    exact ⟨h.wellFormed.updateToolCallTitle toolCallJson id title rawInput,
      h.calls.updateToolCallTitle h.wellFormed id content hreport,
      h.openResult.updateToolCallTitle h.wellFormed id title rawInput,
      fun hkept => hkept.updateToolCallTitle h.wellFormed id title rawInput⟩
  · rename_i hreport
    have htitle : title = none := by
      rw [not_or] at hreport
      simpa using hreport.1
    exact ⟨h.wellFormed, h.calls.skip rfl (.inl ⟨htitle, if_neg hreport⟩), h.openResult,
      fun hkept => hkept⟩

theorem Tracks.receive (h : Tracks toolCallJson us L) (hid : n.toolCallId ∉ seen) :
    Tracks toolCallJson (us ++ [n]) (L.receive toolCallJson seen n) := by
  rcases n with ⟨id, title, rawInput⟩ | ⟨id, title, rawInput, content⟩
  · rw [receive_toolCall (show id ∉ seen from hid)]
    exact ⟨h.wellFormed.recordToolCall toolCallJson id title rawInput,
      h.calls.recordToolCall h.wellFormed id title rawInput,
      OpenResult.recordToolCall h.wellFormed id title rawInput⟩
  · rw [receive_toolCallUpdate (show id ∉ seen from hid)]
    obtain ⟨hwf, hcalls, hopen, -⟩ := tracks_title h id title rawInput content
    dsimp only at hwf hcalls hopen ⊢
    rcases hresult : content.bind extractContentPreview with _ | preview
    · exact ⟨hwf, hcalls, hopen.skip rfl hresult⟩
    · exact ⟨hwf.recordToolResult toolCallJson id preview, hcalls.recordToolResult hwf id preview,
        hopen.recordToolResult (n := .toolCallUpdate id title rawInput content) rfl hresult⟩

theorem ResultsKept.receive (h : ResultsKept us L) (htracks : Tracks toolCallJson us L)
    (hid : n.toolCallId ∉ seen)
    (hsep : n.result.isSome → ∀ owner ∈ resultOwner us, owner = n.toolCallId) :
    ResultsKept (us ++ [n]) (L.receive toolCallJson seen n) := by
  rcases n with ⟨id, title, rawInput⟩ | ⟨id, title, rawInput, content⟩
  · rw [receive_toolCall (show id ∉ seen from hid)]
    exact (h.recordToolCall htracks.wellFormed id title rawInput).skip rfl
  · rw [receive_toolCallUpdate (show id ∉ seen from hid)]
    obtain ⟨hwf, -, hopen, hkept⟩ := tracks_title htracks id title rawInput content
    dsimp only at hwf hopen hkept ⊢
    rcases hresult : content.bind extractContentPreview with _ | preview
    · exact (hkept h).skip hresult
    · exact (hkept h).recordToolResult (n := .toolCallUpdate id title rawInput content) hwf hopen
        hresult (hsep (by rw [ToolNotification.result, hresult]; rfl))

/-- A result that comes while a row is open is written there. -/
theorem mem_writes_of_result (h : OpenResult us L) (hid : n.toolCallId ∉ seen)
    (hresult : n.result.isSome) {owner : List Char} (howner : resultOwner us = some owner)
    (hwf : L.WellFormed) :
    ∃ row, (row, owner) ∈ (L.receive toolCallJson seen n).writes ∧
      (row, n.toolCallId) ∈ (L.receive toolCallJson seen n).writes := by
  rcases n with ⟨id, title, rawInput⟩ | ⟨id, title, rawInput, content⟩
  · cases hresult
  · obtain ⟨preview, hpreview⟩ := Option.isSome_iff_exists.mp hresult
    rw [receive_toolCallUpdate (show id ∉ seen from hid)]
    rw [ToolNotification.result] at hpreview
    rw [hpreview]
    dsimp only [Option.elim_some]
    -- the first half of the update leaves the open row open
    have hopen : ∀ L₁ : Ledger, OpenResult us L₁ → ∃ row,
        (row, owner) ∈ (L₁.call toolCallJson id (.recordToolResult preview)).writes ∧
          (row, id) ∈ (L₁.call toolCallJson id (.recordToolResult preview)).writes := by
      intro L₁ h₁
      rcases hcur : L₁.writer.currentToolResultMsgId with _ | row
      · rw [h₁.closed hcur] at howner
        cases howner
      · obtain ⟨owner', howner', hmem⟩ := h₁.opened row hcur
        obtain rfl : owner' = owner := Option.some.inj (howner'.symm.trans howner)
        refine ⟨row, mem_writes_call _ hmem _ _, mem_writes_call_self _ ?_ _⟩
        rw [MessageWriter.writtenRow, hcur, Option.getD_some]
    apply hopen
    split
    · exact h.updateToolCallTitle hwf id title rawInput
    · exact h

theorem mem_writes_receive (h : (row, id) ∈ L.writes)
    (n : ToolNotification J) : (row, id) ∈ (L.receive toolCallJson seen n).writes := by
  rw [receive]
  induction toolEvents seen n generalizing L with
  | nil => exact h
  | cons e es ih => exact ih (mem_writes_call toolCallJson h _ e)

end Receive

end Ledger

/-! ## Whole sequences -/

section Sequences

variable {toolCallJson} {us : List (ToolNotification J)}

theorem ledger_concat (n : ToolNotification J) :
    ledger toolCallJson seen (us ++ [n]) = (ledger toolCallJson seen us).receive toolCallJson seen n := by
  rw [ledger, List.foldl_append]
  rfl

/-- After any sequence of notifications. -/
theorem tracks_ledger (hfresh : ∀ n ∈ us, n.toolCallId ∉ seen) :
    Ledger.Tracks toolCallJson us (ledger toolCallJson seen us) := by
  induction us using List.reverseRecOn with
  | nil => exact ⟨Ledger.wellFormed_new, .new, .new⟩
  | append_singleton us n ih =>
    rw [ledger_concat]
    exact (ih fun m hm => hfresh m (List.mem_append_left _ hm)).receive
      (hfresh n (List.mem_append_right _ (List.mem_singleton.mpr rfl)))

theorem ResultsSeparated.init (h : ResultsSeparated (us ++ [n])) : ResultsSeparated us := by
  rintro pre m post rfl
  exact h pre m (post ++ [n]) (by simp)

/-- After a sequence in which results do not mix. -/
theorem resultsKept_ledger (hfresh : ∀ n ∈ us, n.toolCallId ∉ seen) (hsep : ResultsSeparated us) :
    Ledger.ResultsKept us (ledger toolCallJson seen us) := by
  induction us using List.reverseRecOn with
  | nil => exact .new
  | append_singleton us n ih =>
    have hfresh' : ∀ m ∈ us, m.toolCallId ∉ seen := fun m hm => hfresh m (List.mem_append_left _ hm)
    rw [ledger_concat]
    exact (ih hfresh' hsep.init).receive (tracks_ledger hfresh')
      (hfresh n (List.mem_append_right _ (List.mem_singleton.mpr rfl))) (hsep us n [] rfl)

theorem mem_writes_ledger_append
    (h : (row, id) ∈ (ledger toolCallJson seen us).writes) (post : List (ToolNotification J)) :
    (row, id) ∈ (ledger toolCallJson seen (us ++ post)).writes := by
  induction post using List.reverseRecOn with
  | nil => rwa [List.append_nil]
  | append_singleton post n ih =>
    rw [← List.append_assoc, ledger_concat]
    exact Ledger.mem_writes_receive ih n

/-- A result that comes after one of another id shares its row. -/
theorem resultsSeparated_of_rowsApart (hfresh : ∀ n ∈ us, n.toolCallId ∉ seen)
    (h : (ledger toolCallJson seen us).RowsApart) : ResultsSeparated us := by
  rintro pre n post rfl hresult owner howner
  have hpre : Ledger.Tracks toolCallJson pre (ledger toolCallJson seen pre) :=
    tracks_ledger fun m hm => hfresh m (List.mem_append_left _ hm)
  obtain ⟨row, howner', hn⟩ :
      ∃ row, (row, owner) ∈ ((ledger toolCallJson seen pre).receive toolCallJson seen n).writes ∧
        (row, n.toolCallId) ∈ ((ledger toolCallJson seen pre).receive toolCallJson seen n).writes :=
    Ledger.mem_writes_of_result hpre.openResult (hfresh n (by simp)) hresult howner hpre.wellFormed
  rw [← ledger_concat] at howner' hn
  refine h row owner n.toolCallId ?_ ?_
  · rw [List.append_cons]
    exact mem_writes_ledger_append howner' post
  · rw [List.append_cons]
    exact mem_writes_ledger_append hn post

theorem exists_of_lastReported {β : Type*} {f : ToolNotification J → Option β} {b : β}
    (h : lastReported f us id = some b) : ∃ n ∈ us, n.toolCallId = id := by
  obtain ⟨n, hn, hf⟩ := List.exists_of_findSome?_eq_some h
  refine ⟨n, List.mem_reverse.mp hn, ?_⟩
  by_contra hne
  rw [if_neg hne] at hf
  cases hf

/-- A row that an id has written and that is a tool call is the row that the writer remembers. -/
theorem Ledger.Tracks.lookup_of_callRow {L : Ledger} (h : Ledger.Tracks toolCallJson us L)
    (hmem : (row, id) ∈ L.writes)
    (hrow : L.writer.rows[row]? = some ⟨.toolCall, content⟩) :
    ∃ title, L.writer.toolCallRows.lookup id = some (row, title) := by
  rcases h.wellFormed.written row id hmem with hlook | hrole
  · exact hlook
  · exact absurd ((hasRole_of_getElem? hrow).unique hrole) (by simp)

/-- When every tool call keeps its own rows. For every sequence of live `ToolCall` and `ToolCallUpdate`
notifications: each id has exactly one tool-call row, which shows its last title and its last raw input,
each id that reported a result has a row with the last one, and no row is written for two ids, if and
only if every id is announced by a `ToolCall`, no input is lost by a rewrite without one, and no result
comes after a result of another id with no `ToolCall` in between. -/
theorem keepsOwnRows_iff
    (hjson : ∀ title input, title.length < (toolCallJson title input).length)
    (us : List (ToolNotification J)) (hfresh : ∀ n ∈ us, n.toolCallId ∉ seen) :
    KeepsOwnRows toolCallJson us (ledger toolCallJson seen us) ↔
      CallsAnnounced us ∧ InputsRepeated us ∧ ResultsSeparated us := by
  have htracks : Ledger.Tracks toolCallJson us (ledger toolCallJson seen us) := tracks_ledger hfresh
  constructor
  · rintro ⟨hcalls, -, hapart⟩
    refine ⟨fun n hn => ?_, fun id hinput hrewrite => ?_, resultsSeparated_of_rowsApart hfresh hapart⟩
    · obtain ⟨title, -, row, hmem, hrow, -⟩ := hcalls n hn
      obtain ⟨stored, hlook⟩ := htracks.lookup_of_callRow hmem hrow
      by_contra hnot
      rw [← htracks.calls.announced, hlook] at hnot
      cases hnot
    · obtain ⟨input, hinput⟩ := Option.isSome_iff_exists.mp hinput
      obtain ⟨n, hn, rfl⟩ := exists_of_lastReported hinput
      obtain ⟨title, htitle, row, hmem, hrow, -⟩ := hcalls n hn
      obtain ⟨stored, hlook⟩ := htracks.lookup_of_callRow hmem hrow
      obtain ⟨hstored, rawInput, hraw, hshown⟩ := htracks.calls.shown _ row stored hlook
      -- the row shows the title alone, and the title is shorter than the object with the input
      rw [htitle, Option.map_some, Option.some.injEq] at hstored
      obtain rfl : none = rawInput := Option.some.inj (hrewrite.symm.trans hraw)
      rw [hrow, hinput, hstored, Option.some.injEq, SessionMessage.mk.injEq] at hshown
      have hlen := hjson stored input
      rw [formatToolCallContent, formatToolCallContent] at hshown
      rw [hshown.2] at hlen
      exact absurd hlen (lt_irrefl _)
  · rintro ⟨hann, hinputs, hsep⟩
    have hkept : Ledger.ResultsKept us (ledger toolCallJson seen us) := resultsKept_ledger hfresh hsep
    refine ⟨fun n hn => ?_, hkept.results, hkept.apart⟩
    rcases hlook : (ledger toolCallJson seen us).writer.toolCallRows.lookup n.toolCallId with
      _ | ⟨row, stored⟩
    · exact absurd (hann n hn) ((htracks.calls.announced _).mp hlook)
    · obtain ⟨hstored, rawInput, hraw, hshown⟩ := htracks.calls.shown _ row stored hlook
      obtain ⟨title, htitle, rfl⟩ := Option.map_eq_some_iff.mp hstored
      have hlast : lastReported ToolNotification.rawInput us n.toolCallId = rawInput := by
        rcases rawInput with _ | input
        · rcases hinput : lastReported ToolNotification.rawInput us n.toolCallId with _ | input
          · rfl
          · exact absurd hraw (hinputs n.toolCallId (by rw [hinput]; rfl))
        · exact lastReported_rawInput_of_rewrite hraw
      refine ⟨title, htitle, row, (htracks.wellFormed.callRow _ row _ hlook).2, hlast ▸ hshown, ?_⟩
      intro row' hmem hrole
      rcases htracks.wellFormed.written row' _ hmem with ⟨stored', hlook'⟩ | hresult
      · rw [hlook, Option.some.injEq, Prod.mk.injEq] at hlook'
        exact hlook'.1.symm
      · exact absurd (hrole.unique hresult) (by decide)

/-- The object of a tool call whose title needs no escapes and whose input is a truth value. -/
def flagJson (title : List Char) (input : Bool) : List Char :=
  "\x7b\"input\":".toList ++ (if input then "true" else "false").toList ++
    ",\"name\":\"".toList ++ title ++ "\"\x7d".toList

/-- A text as the content of an update. -/
def textContent (text : List Char) : Option (List ToolCallContent) :=
  some [.content (.text text)]

/-- Two calls, one after the other, each with an input that comes later and with its result. -/
def callsInTurn : List (ToolNotification Bool) :=
  [.toolCall ['A'] ['r', 'e', 'a', 'd'] none,
    .toolCallUpdate ['A'] none (some true) (textContent ['a']),
    .toolCall ['B'] ['l', 's'] (some false),
    .toolCallUpdate ['B'] none none (textContent ['b'])]

theorem callsInTurn_keepsOwnRows :
    (∀ title input, title.length < (flagJson title input).length) ∧
      (∀ n ∈ callsInTurn, n.toolCallId ∉ (∅ : Finset (List Char))) ∧
      (ledger flagJson ∅ callsInTurn).writer.rows =
        [⟨.toolCall, flagJson ['r', 'e', 'a', 'd'] true⟩, ⟨.toolResult, ['a']⟩,
          ⟨.toolCall, flagJson ['l', 's'] false⟩, ⟨.toolResult, ['b']⟩] ∧
      (KeepsOwnRows flagJson callsInTurn (ledger flagJson ∅ callsInTurn) ↔
        CallsAnnounced callsInTurn ∧ InputsRepeated callsInTurn ∧ ResultsSeparated callsInTurn) := by
  have hjson : ∀ title input, title.length < (flagJson title input).length := by
    have hlen : ∀ before title after : List Char, 0 < after.length →
        title.length < (before ++ title ++ after).length := by
      intro before title after h
      rw [List.length_append, List.length_append]
      omega
    exact fun title input => hlen _ title _ (by decide)
  have hfresh : ∀ n ∈ callsInTurn, n.toolCallId ∉ (∅ : Finset (List Char)) := by simp
  exact ⟨hjson, hfresh, by decide, keepsOwnRows_iff hjson callsInTurn hfresh⟩

/-- Two calls at the same time. -/
def parallelResults : List (ToolNotification Bool) :=
  [.toolCall ['A'] ['r', 'e', 'a', 'd'] (some true), .toolCall ['B'] ['l', 's'] (some false),
    .toolCallUpdate ['A'] none none (textContent ['a']),
    .toolCallUpdate ['B'] none none (textContent ['b'])]

/-- The result of the second call replaces that of the first. -/
theorem parallelResults_share_row :
    (ledger flagJson ∅ parallelResults).writer.rows =
        [⟨.toolCall, flagJson ['r', 'e', 'a', 'd'] true⟩,
          ⟨.toolCall, flagJson ['l', 's'] false⟩, ⟨.toolResult, ['b']⟩] ∧
      ¬ KeepsOwnRows flagJson parallelResults (ledger flagJson ∅ parallelResults) := by
  have hwrites : (ledger flagJson ∅ parallelResults).writes =
      [(0, ['A']), (1, ['B']), (2, ['A']), (2, ['B'])] := by decide
  refine ⟨by decide, fun ⟨_, _, hapart⟩ => ?_⟩
  have hsame : ['A'] = ['B'] := hapart 2 ['A'] ['B'] (by simp [hwrites]) (by simp [hwrites])
  cases hsame

end Sequences

end Calls

end Builderbot.Staged
