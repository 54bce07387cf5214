import Builderbot.AcpClient.NotificationHandler

/-!
# Replay isolation

Nothing of a replay reaches the writer, and everything live does. Completion may be reported before the
replay is over, since a result can have several updates and each of them moves the cursor. The cursor
cannot leave the run of results that it is in (`Tracks`), so what is left of the replay at that moment
are updates of tool calls that have been seen, and user messages (`Inert`). The handler drops the
former by their ids and ignores the latter.
-/

namespace Builderbot.AcpClient

variable {J M : Type*}

/-! ## Replays -/

/-- A chunk of a message with the role. -/
def textChunk (role : StoredRole) (text : List Char) : SessionUpdate J M :=
  if role = .user then .userMessageChunk (.text text) else .agentMessageChunk (.text text)

/-- A thought, or an update of a tool call without content. -/
def IsAside : SessionUpdate J M → Prop
  | .agentThoughtChunk _ | .toolCallUpdate _ _ _ none => True
  | _ => False

/-- The updates replay the stored messages: `ids` are the tool calls announced before and `current` is
the role of the message whose replay is under way. -/
inductive Replays : Finset (List Char) → Option StoredRole → List StoredRole →
    List (SessionUpdate J M) → Prop where
  | nil {ids current} : Replays ids current [] []
  | aside {ids current roles update updates} : IsAside update →
      Replays ids current roles updates → Replays ids current roles (update :: updates)
  | text {ids current roles updates} (role text) : role.isText = true → text ≠ [] →
      Replays ids (some role) roles updates →
        Replays ids current (role :: roles) (textChunk role text :: updates)
  | moreText {ids roles updates} (role text) : role.isText = true → text ≠ [] →
      Replays ids (some role) roles updates →
        Replays ids (some role) roles (textChunk role text :: updates)
  | toolCall {ids current roles toolCallId title rawInput updates} :
      Replays (insert toolCallId ids) (some .toolCall) roles updates →
        Replays ids current (.toolCall :: roles) (.toolCall toolCallId title rawInput :: updates)
  | toolResult {ids current roles toolCallId title rawInput content updates} : toolCallId ∈ ids →
      Replays ids (some .toolResult) roles updates →
        Replays ids current (.toolResult :: roles)
          (.toolCallUpdate toolCallId title rawInput (some content) :: updates)
  | moreResult {ids roles toolCallId title rawInput content updates} : toolCallId ∈ ids →
      Replays ids (some .toolResult) roles updates →
        Replays ids (some .toolResult) roles
          (.toolCallUpdate toolCallId title rawInput (some content) :: updates)

/-! ## The cursor -/

theorem lastNonUser_concat (roles : List StoredRole) (role : StoredRole) :
    lastNonUser (roles ++ [role])
      = if role ≠ .user then some roles.length else lastNonUser roles := by
  simp only [lastNonUser, List.zipIdx_append, List.reverse_append, Nat.zero_add]
  by_cases h : role = .user <;> simp [h]

variable {roles : List StoredRole}

/-- Past the last message that is not a user message there are user messages only. -/
theorem user_of_mem_drop {n : ℕ} (h : ∀ t ∈ lastNonUser roles, t < n) :
    ∀ role ∈ roles.drop n, role = .user := by
  induction roles using List.reverseRecOn with
  | nil => simp
  | append_singleton roles last ih =>
    rw [lastNonUser_concat] at h
    by_cases hlast : last = .user
    · intro role hrole
      rw [List.drop_append, List.mem_append] at hrole
      rcases hrole with hrole | hrole
      · exact ih (by simpa [hlast] using h) role hrole
      · exact (List.mem_singleton.mp (List.mem_of_mem_drop hrole)).trans hlast
    · have hlt : roles.length < n := h _ (by simp [hlast])
      simp [List.drop_of_length_le (show (roles ++ [last]).length ≤ n by simp; omega)]

namespace ReplayBuffer

variable (buf : ReplayBuffer)

theorem tryMatch_spec (role : StoredRole) :
    (buf.tryMatch role).2 = (buf.tryMatch role).1.isComplete ∧ ∃ n,
      (buf.tryMatch role).1 = { buf with matchCursor := n } ∧
        (n = buf.matchCursor ∨
          n = buf.matchCursor + 1 ∧ buf.dbMessages[buf.matchCursor]? = some role) := by
  unfold tryMatch
  split
  · exact ⟨rfl, buf.matchCursor, rfl, .inl rfl⟩
  · rename_i dbRole hdb
    by_cases hrole : role = dbRole
    · exact ⟨rfl, buf.matchCursor + 1, by simp [hrole], .inr ⟨rfl, hrole ▸ hdb⟩⟩
    · exact ⟨rfl, buf.matchCursor, by simp [hrole], .inl rfl⟩

theorem finalizeCurrent_spec :
    (buf.finalizeCurrent.2 = true → buf.finalizeCurrent.1.isComplete = true) ∧ ∃ n text,
      buf.finalizeCurrent.1
        = { buf with matchCursor := n, currentRole := none, currentText := text } ∧
        n ≤ buf.matchCursor + 1 ∧ (buf.currentRole = none → n = buf.matchCursor) := by
  unfold finalizeCurrent
  split
  · rename_i role hrole
    have hsome : buf.currentRole ≠ none := by simp [hrole]
    split
    · obtain ⟨hflag, n, hn, hcursor⟩ :=
        tryMatch_spec { buf with currentRole := none, currentText := [] } role
      refine ⟨fun h => hflag ▸ h, n, [], hn, ?_, fun h => absurd h hsome⟩
      rcases hcursor with hn | ⟨hn, -⟩
      · exact hn ▸ Nat.le_succ _
      · exact hn.le
    · exact ⟨nofun, buf.matchCursor, buf.currentText, rfl, Nat.le_succ _, fun _ => rfl⟩
  · rename_i hrole
    refine ⟨nofun, buf.matchCursor, buf.currentText, ?_, Nat.le_succ _, fun _ => rfl⟩
    rw [← hrole]

end ReplayBuffer

/-- How far the cursor can have come when the replay is in the message after which `rest` is stored.
The text of that message has not been matched, and results may have been matched up to the end of
their run. -/
def cursorBound (past : List StoredRole) : Option StoredRole → List StoredRole → ℕ
  | some .toolResult, rest => past.length + (rest.takeWhile (· = .toolResult)).length
  | some .toolCall, _ | none, _ => past.length
  | some _, _ => past.length - 1

/-- The buffer has received the messages of `past`, the last one perhaps in part. -/
structure Tracks (past : List StoredRole) (current : Option StoredRole) (rest : List StoredRole)
    (buf : ReplayBuffer) : Prop where
  db : buf.dbMessages = past ++ rest
  target : buf.targetIndex = lastNonUser buf.dbMessages
  last : current = past.getLast?
  role : buf.currentRole = current.filter (·.isText)
  cursor : buf.matchCursor ≤ cursorBound past current rest

/-- What is left of the replay has no text of the agent and no tool call. -/
def Inert (current : Option StoredRole) (roles : List StoredRole) : Prop :=
  current ≠ some .assistant ∧ ∀ role ∈ roles, role = .user ∨ role = .toolResult

/-- Past a run of results there is no result to match. -/
theorem getElem?_after_results (past rest : List StoredRole) {n : ℕ}
    (hn : n = past.length + (rest.takeWhile (· = .toolResult)).length) :
    (past ++ rest)[n]? ≠ some .toolResult := by
  rw [hn, List.getElem?_append_right (Nat.le_add_right _ _), Nat.add_sub_cancel_left]
  clear hn
  induction rest with
  | nil => simp
  | cons role rest ih =>
    by_cases hrole : role = .toolResult
    · simpa [List.takeWhile_cons, hrole] using ih
    · simp [hrole]

namespace Tracks

variable {past rest roles : List StoredRole} {current : Option StoredRole} {role : StoredRole}
  {buf : ReplayBuffer}

theorem new (roles : List StoredRole) : Tracks [] none roles (.new roles) :=
  ⟨rfl, rfl, rfl, rfl, Nat.le_refl 0⟩

/-- Once the cursor has passed the target, the rest of the replay is inert. -/
theorem inert (h : Tracks past current rest buf) (hcomplete : buf.isComplete = true) :
    Inert current rest := by
  have huser : ∀ n, buf.matchCursor ≤ n → ∀ r ∈ (past ++ rest).drop n, r = .user := by
    intro n hn
    refine user_of_mem_drop fun t ht => ?_
    rw [← h.db, ← h.target] at ht
    unfold ReplayBuffer.isComplete at hcomplete
    rw [Option.mem_def.mp ht] at hcomplete
    exact (of_decide_eq_true hcomplete).trans_le hn
  have hcursor := h.cursor
  constructor
  · rintro rfl
    -- the text of an assistant message is matched after the message only
    obtain ⟨before, hpast⟩ := List.getLast?_eq_some_iff.mp h.last.symm
    have hmem : StoredRole.assistant ∈ (past ++ rest).drop (past.length - 1) := by
      rw [hpast]
      simp
    exact absurd (huser _ hcursor _ hmem) nofun
  · intro r hr
    by_cases hcurrent : current = some .toolResult
    · subst hcurrent
      have hsplit := List.takeWhile_append_dropWhile (p := (· = .toolResult)) (l := rest)
      rw [← hsplit, List.mem_append] at hr
      rcases hr with hr | hr
      · have hresult := List.mem_takeWhile_imp hr
        exact .inr (of_decide_eq_true hresult)
      · refine .inl (huser _ hcursor r ?_)
        rw [cursorBound, ← hsplit, ← List.append_assoc, List.drop_left' (by simp)]
        exact hr
    · have hle : cursorBound past current rest ≤ past.length := by
        unfold cursorBound
        split
        · exact absurd rfl hcurrent
        · exact le_rfl
        · exact le_rfl
        · exact Nat.sub_le _ _
      refine .inl (huser past.length (hcursor.trans hle) r ?_)
      rw [List.drop_left]
      exact hr

/-- Where the cursor is before a message that is not a further result. -/
theorem cursor_le (h : Tracks past current (role :: rest) buf)
    (hnext : current = some .toolResult → role ≠ .toolResult) :
    buf.matchCursor ≤ past.length ∧ (buf.currentRole ≠ none → buf.matchCursor < past.length) := by
  have hcursor := h.cursor
  have hrole := h.role
  match current, h.last, hnext with
  | some .user, hlast, _ | some .assistant, hlast, _ =>
    have hpos : past ≠ [] := by
      rintro rfl
      exact absurd hlast nofun
    have hlength := List.length_pos_iff.mpr hpos
    simp only [cursorBound] at hcursor
    exact ⟨by omega, fun _ => by omega⟩
  | some .toolCall, _, _ | none, _, _ => exact ⟨hcursor, fun hsome => absurd hrole hsome⟩
  | some .toolResult, _, hnext =>
    refine ⟨?_, fun hsome => absurd hrole hsome⟩
    simpa [cursorBound, List.takeWhile_cons, hnext rfl] using hcursor

/-- Finalizing the current message before one that is not a further result. -/
theorem finalizeCurrent (h : Tracks past current (role :: rest) buf)
    (hnext : current = some .toolResult → role ≠ .toolResult) :
    (buf.finalizeCurrent.2 = true → buf.finalizeCurrent.1.isComplete = true) ∧ ∃ n text,
      buf.finalizeCurrent.1
        = { buf with matchCursor := n, currentRole := none, currentText := text } ∧
        n ≤ past.length := by
  obtain ⟨hflag, n, text, hbuf, hle, hnone⟩ := buf.finalizeCurrent_spec
  obtain ⟨hcursor, hlt⟩ := h.cursor_le hnext
  refine ⟨hflag, n, text, hbuf, ?_⟩
  by_cases hrole : buf.currentRole = none
  · exact hnone hrole ▸ hcursor
  · exact hle.trans (hlt hrole)

/-- The first chunk of a text message. -/
theorem pushText (h : Tracks past current (role :: rest) buf) (hrole : role.isText = true)
    (text : List Char) :
    Tracks (past ++ [role]) (some role) rest (buf.pushText role text).1 ∧
      ((buf.pushText role text).2 = true → (buf.pushText role text).1.isComplete = true) := by
  have hnext : current = some .toolResult → role ≠ .toolResult := by
    rintro - rfl
    exact absurd hrole nofun
  have hbound : cursorBound (past ++ [role]) (some role) rest = past.length := by
    cases role with
    | user | assistant => simp [cursorBound]
    | toolCall | toolResult => exact absurd hrole nofun
  have hdb := h.db.trans (List.append_cons past role rest)
  unfold ReplayBuffer.pushText
  split
  · obtain ⟨hflag, n, text', hbuf, hn⟩ := h.finalizeCurrent hnext
    refine ⟨?_, hflag⟩
    simp only [hbuf]
    exact ⟨hdb, h.target, by simp, (Option.filter_some_pos hrole).symm, hbound ▸ hn⟩
  · rename_i hcurrent
    refine ⟨⟨hdb, h.target, by simp, ?_, hbound ▸ (h.cursor_le hnext).1⟩, nofun⟩
    exact (not_not.mp hcurrent).trans (Option.filter_some_pos hrole).symm

/-- A further chunk of a text message. -/
theorem pushText_more (h : Tracks past (some role) rest buf) (hrole : role.isText = true)
    (text : List Char) :
    Tracks past (some role) rest (buf.pushText role text).1 ∧ (buf.pushText role text).2 = false := by
  have hcurrent : buf.currentRole = some role := by
    rw [h.role]
    simp [hrole]
  have hpush : buf.pushText role text
      = ({ buf with currentText := buf.currentText ++ text }, false) := by
    simp [ReplayBuffer.pushText, hcurrent]
  rw [hpush]
  exact ⟨⟨h.db, h.target, h.last, h.role, h.cursor⟩, rfl⟩

/-- A tool call. -/
theorem toolCall (h : Tracks past current (.toolCall :: rest) buf) :
    Tracks (past ++ [.toolCall]) (some .toolCall) rest (buf.finalizeCurrent.1.tryMatch .toolCall).1 := by
  obtain ⟨-, n, text, hbuf, hn⟩ := h.finalizeCurrent fun _ => nofun
  obtain ⟨-, m, hm, hcursor⟩ := buf.finalizeCurrent.1.tryMatch_spec .toolCall
  rw [hm, hbuf]
  rw [hbuf] at hcursor
  refine ⟨h.db.trans (List.append_cons past _ rest), h.target, by simp, rfl, ?_⟩
  simp only [cursorBound, List.length_append, List.length_singleton]
  rcases hcursor with hm | ⟨hm, -⟩
  · exact hm ▸ hn.trans (Nat.le_succ _)
  · exact hm ▸ Nat.succ_le_succ hn

/-- The first update of a result. When an earlier result has had several updates, the cursor may be
at the end of the run already. -/
theorem toolResult (h : Tracks past current (.toolResult :: rest) buf) :
    Tracks (past ++ [.toolResult]) (some .toolResult) rest
      (buf.finalizeCurrent.1.tryMatch .toolResult).1 := by
  obtain ⟨-, n, text, hbuf, hle, hnone⟩ := buf.finalizeCurrent_spec
  obtain ⟨-, m, hm, hcursor⟩ := buf.finalizeCurrent.1.tryMatch_spec .toolResult
  have hdb := h.db.trans (List.append_cons past _ rest)
  rw [hm, hbuf]
  rw [hbuf] at hcursor
  refine ⟨hdb, h.target, by simp, rfl, ?_⟩
  have hn : n ≤ past.length + 1 + (rest.takeWhile (· = .toolResult)).length := by
    by_cases hcurrent : current = some .toolResult
    · subst hcurrent
      rw [hnone h.role]
      have hbound := h.cursor
      simp only [cursorBound, List.takeWhile_cons, decide_true, if_true, List.length_cons] at hbound
      omega
    · obtain ⟨hbound, hlt⟩ := h.cursor_le fun hsome => absurd hsome hcurrent
      by_cases hrole : buf.currentRole = none
      · rw [hnone hrole]
        omega
      · have hpos := hlt hrole
        omega
  simp only [cursorBound, List.length_append, List.length_singleton]
  rcases hcursor with rfl | ⟨rfl, hrole⟩
  · exact hn
  · refine Nat.lt_of_le_of_ne hn fun heq => ?_
    refine getElem?_after_results (past ++ [.toolResult]) rest (n := n) ?_ ?_
    · rw [List.length_append, List.length_singleton]
      exact heq
    · rw [← hdb]
      exact hrole

/-- A further update of a result. -/
theorem toolResult_more (h : Tracks past (some .toolResult) rest buf) :
    Tracks past (some .toolResult) rest (buf.finalizeCurrent.1.tryMatch .toolResult).1 := by
  obtain ⟨-, n, text, hbuf, hle, hnone⟩ := buf.finalizeCurrent_spec
  obtain ⟨-, m, hm, hcursor⟩ := buf.finalizeCurrent.1.tryMatch_spec .toolResult
  rw [hm, hbuf]
  rw [hbuf] at hcursor
  refine ⟨h.db, h.target, h.last, rfl, ?_⟩
  obtain rfl := hnone h.role
  rcases hcursor with rfl | ⟨rfl, hrole⟩
  · exact h.cursor
  · refine Nat.lt_of_le_of_ne h.cursor fun heq => getElem?_after_results past rest heq ?_
    rw [← h.db]
    exact hrole

end Tracks

/-! ## The replay in each phase -/

variable {current : Option StoredRole}

theorem Tracks.withIds {past rest : List StoredRole}
    {buf : ReplayBuffer} (h : Tracks past current rest buf) (ids : Finset (List Char)) :
    Tracks past current rest { buf with replayedToolCallIds := ids } :=
  ⟨h.db, h.target, h.last, h.role, h.cursor⟩

theorem receive_textChunk (buf : ReplayBuffer) {role : StoredRole} (hrole : role.isText = true)
    (text : List Char) : ∃ ids, buf.receive (textChunk role text : SessionUpdate J M)
      = { buf with replayedToolCallIds := ids }.pushText role text := by
  cases role with
  | user | assistant => exact ⟨_, rfl⟩
  | toolCall | toolResult => exact absurd hrole nofun

def WriterCall.isTitleUpdate : WriterCall J M → Bool
  | updateToolCallTitle .. => true
  | _ => false

/-- User messages are ignored. -/
theorem calls_textChunk {role : StoredRole} (hrole : role = .user) (seen : Finset (List Char))
    (text : List Char) :
    (sessionNotification (.live seen) (textChunk role text : SessionUpdate J M)).2.2 = [] := by
  subst hrole
  rfl

/-- The safety net drops the updates of tool calls that were seen. -/
theorem calls_seen {seen : Finset (List Char)} {toolCallId : List Char} (hid : toolCallId ∈ seen)
    (title : Option (List Char)) (rawInput : Option J) (content : Option (List ToolCallContent)) :
    (sessionNotification (.live seen)
      (.toolCallUpdate toolCallId title rawInput content : SessionUpdate J M)).2.2 = [] := by
  simp [sessionNotification, notificationToolCallId, hid]

/-- What is to reach the writer of a live update. -/
def delivered : SessionUpdate J M → List (WriterCall J M)
  | .agentMessageChunk (.text text) => [.appendText text]
  | .toolCall toolCallId title rawInput => [.recordToolCall toolCallId title rawInput]
  | .toolCallUpdate toolCallId title rawInput content =>
    (if title.isSome ∨ rawInput.isSome then [.updateToolCallTitle toolCallId title rawInput]
      else []) ++ ((content.bind extractContentPreview).map WriterCall.recordToolResult).toList
  | .sessionInfoUpdate info => [.onSessionInfoUpdate info]
  | .configOptionUpdate configOptions => [.onConfigOptionUpdate configOptions]
  | _ => []

/-- In the phase `Live` an update passes if its tool call was not seen in the replay. -/
theorem calls_fresh {seen : Finset (List Char)} (update : SessionUpdate J M)
    (hfresh : ∀ id ∈ notificationToolCallId update, id ∉ seen) :
    (sessionNotification (.live seen) update).2.2 = delivered update := by
  cases update with
  | userMessageChunk content | agentThoughtChunk content | other => rfl
  | agentMessageChunk content => cases content <;> rfl
  | sessionInfoUpdate info | configOptionUpdate configOptions => rfl
  | toolCall toolCallId title rawInput =>
    have hid := hfresh toolCallId rfl
    simp [sessionNotification, notificationToolCallId, hid, liveAction, LiveAction.calls, delivered]
  | toolCallUpdate toolCallId title rawInput content =>
    have hid := hfresh toolCallId rfl
    simp only [sessionNotification, notificationToolCallId, Option.mem_some_iff, exists_eq_left',
      hid, if_false, liveAction, delivered]
    cases title <;> cases rawInput <;> cases content.bind extractContentPreview <;>
      simp [LiveAction.calls]

theorem calls_aside {update : SessionUpdate J M} (h : IsAside update) (seen : Finset (List Char)) :
    ∀ call ∈ (sessionNotification (.live seen) update).2.2, call.isTitleUpdate = true := by
  intro call hcall
  match update, h with
  | .agentThoughtChunk _, _ => simp [sessionNotification, notificationToolCallId, liveAction,
      LiveAction.calls] at hcall
  | .toolCallUpdate toolCallId title rawInput none, _ =>
    by_cases hid : toolCallId ∈ seen
    · simp [calls_seen hid] at hcall
    · rw [calls_fresh _ (by simpa [notificationToolCallId] using hid)] at hcall
      simp only [delivered, Option.bind_none, Option.map_none, Option.toList_none,
        List.append_nil] at hcall
      split at hcall
      · rw [List.mem_singleton.mp hcall]
        rfl
      · cases hcall

/-- Session metadata are forwarded in every phase. -/
def SessionUpdate.isMetadata : SessionUpdate J M → Bool
  | sessionInfoUpdate _ | configOptionUpdate _ => true
  | _ => false

theorem isMetadata_textChunk (role : StoredRole) (text : List Char) :
    (textChunk role text : SessionUpdate J M).isMetadata = false := by
  unfold textChunk
  split <;> rfl

/-- One update of a replay, in the three phases of the handler. -/
theorem Replays.next {ids : Finset (List Char)}
    {update : SessionUpdate J M} {updates : List (SessionUpdate J M)}
    (unsent : List StoredRole) (h : Replays ids current roles (update :: updates)) :
    update.isMetadata = false ∧ ∃ ids' current' roles', Replays ids' current' roles' updates ∧
      ids' ⊆ ids ∪ (notificationToolCallId update).toFinset ∧
      (∀ past buf, Tracks past current (roles ++ unsent) buf →
        (∃ past', Tracks past' current' (roles' ++ unsent) (buf.receive update).1) ∧
          ((buf.receive update).2 = true → (buf.receive update).1.isComplete = true)) ∧
      (Inert current roles → Inert current' roles' ∧ ids' ⊆ ids ∧ ∀ seen, ids ⊆ seen →
        ∀ call ∈ (sessionNotification (.live seen) update).2.2, call.isTitleUpdate = true) := by
  cases h with
  | aside haside hrest =>
    have hkind : update.isMetadata = false ∧ ∀ buf : ReplayBuffer, ∃ ids',
        buf.receive update = ({ buf with replayedToolCallIds := ids' }, false) := by
      match update, haside with
      | .agentThoughtChunk _, _ | .toolCallUpdate _ _ _ none, _ => exact ⟨rfl, fun buf => ⟨_, rfl⟩⟩
    refine ⟨hkind.1, ids, current, roles, hrest, Finset.subset_union_left, fun past buf hbuf => ?_,
      fun hinert => ⟨hinert, subset_rfl, fun seen _ => calls_aside haside seen⟩⟩
    obtain ⟨ids', hreceive⟩ := hkind.2 buf
    rw [hreceive]
    exact ⟨⟨past, hbuf.withIds ids'⟩, nofun⟩
  | text role text hrole htext hrest =>
    rename_i roles
    refine ⟨isMetadata_textChunk role text, ids, some role, roles, hrest, Finset.subset_union_left,
      fun past buf hbuf => ?_, fun hinert => ?_⟩
    · obtain ⟨ids', hreceive⟩ := receive_textChunk (J := J) (M := M) buf hrole text
      rw [hreceive]
      obtain ⟨htracks, hflag⟩ := (hbuf.withIds ids').pushText hrole text
      exact ⟨⟨_, htracks⟩, hflag⟩
    -- an inert replay is left with user text only, which calls no writer
    · have huser : role = .user := by
        rcases hinert.2 role List.mem_cons_self with huser | hresult
        · exact huser
        · exact absurd (hresult ▸ hrole) nofun
      refine ⟨⟨?_, fun r hr => hinert.2 r (List.mem_cons_of_mem _ hr)⟩, subset_rfl, fun seen _ => ?_⟩
      · rw [huser]
        exact nofun
      · rw [calls_textChunk huser]
        exact nofun
  | moreText role text hrole htext hrest =>
    refine ⟨isMetadata_textChunk role text, ids, some role, roles, hrest, Finset.subset_union_left,
      fun past buf hbuf => ?_, fun hinert => ⟨hinert, subset_rfl, fun seen _ => ?_⟩⟩
    · obtain ⟨ids', hreceive⟩ := receive_textChunk (J := J) (M := M) buf hrole text
      rw [hreceive]
      obtain ⟨htracks, hflag⟩ := (hbuf.withIds ids').pushText_more hrole text
      exact ⟨⟨_, htracks⟩, fun hdone => absurd (hflag.symm.trans hdone) nofun⟩
    · have huser : role = .user := by
        cases role with
        | user => rfl
        | assistant => exact absurd rfl hinert.1
        | toolCall | toolResult => exact absurd hrole nofun
      rw [calls_textChunk huser]
      exact nofun
  -- the call of an inert replay has come already
  | toolCall hrest =>
    rename_i roles toolCallId title rawInput
    refine ⟨rfl, _, _, roles, hrest, ?_, fun past buf hbuf => ?_, fun hinert => ?_⟩
    · simp [notificationToolCallId]
    · exact ⟨⟨_, (hbuf.withIds _).toolCall⟩, fun hdone =>
        (ReplayBuffer.tryMatch_spec _ .toolCall).1.symm.trans hdone⟩
    · exact absurd (hinert.2 .toolCall List.mem_cons_self) nofun
  | toolResult hid hrest =>
    rename_i roles toolCallId title rawInput content
    refine ⟨rfl, ids, _, roles, hrest, Finset.subset_union_left, fun past buf hbuf => ?_,
      fun hinert => ⟨⟨nofun, fun r hr => hinert.2 r (List.mem_cons_of_mem _ hr)⟩, subset_rfl,
        fun seen hseen => ?_⟩⟩
    · exact ⟨⟨_, (hbuf.withIds _).toolResult⟩, fun hdone =>
        (ReplayBuffer.tryMatch_spec _ .toolResult).1.symm.trans hdone⟩
    · rw [calls_seen (hseen hid)]
      exact nofun
  | moreResult hid hrest =>
    refine ⟨rfl, ids, _, roles, hrest, Finset.subset_union_left, fun past buf hbuf => ?_,
      fun hinert => ⟨hinert, subset_rfl, fun seen hseen => ?_⟩⟩
    · exact ⟨⟨_, (hbuf.withIds _).toolResult_more⟩, fun hdone =>
        (ReplayBuffer.tryMatch_spec _ .toolResult).1.symm.trans hdone⟩
    · rw [calls_seen (hseen hid)]
      exact nofun

/-! ## The driver -/

theorem ReplayBuffer.receive_ids (buf : ReplayBuffer) (update : SessionUpdate J M) :
    (buf.receive update).1.replayedToolCallIds
      = buf.replayedToolCallIds ∪ (notificationToolCallId update).toFinset := by
  have hmatch : ∀ (buf : ReplayBuffer) (role : StoredRole),
      (buf.tryMatch role).1.replayedToolCallIds = buf.replayedToolCallIds := by
    intro buf role
    obtain ⟨-, n, hn, -⟩ := buf.tryMatch_spec role
    rw [hn]
  have hfinalize : ∀ buf : ReplayBuffer,
      buf.finalizeCurrent.1.replayedToolCallIds = buf.replayedToolCallIds := by
    intro buf
    obtain ⟨-, n, text, hbuf, -⟩ := buf.finalizeCurrent_spec
    rw [hbuf]
  have hpush : ∀ (buf : ReplayBuffer) (role : StoredRole) (text : List Char),
      (buf.pushText role text).1.replayedToolCallIds = buf.replayedToolCallIds := by
    intro buf role text
    unfold pushText
    split
    · exact hfinalize buf
    · rfl
  unfold receive
  split
  · exact hpush ..
  · exact hpush ..
  · rw [hmatch, hfinalize]
  · rw [hmatch, hfinalize]
  · rfl

namespace HandlerPhase

variable {phase : HandlerPhase} {update : SessionUpdate J M}

theorem notification_eq (h : update.isMetadata = false) : sessionNotification phase update =
    match phase with
    | .replaying buf => (.replaying (buf.receive update).1, (buf.receive update).2, [])
    | .waitingForPrompt ids =>
      (.waitingForPrompt (ids ∪ (notificationToolCallId update).toFinset), false, [])
    | .live ids =>
      if ∃ id ∈ notificationToolCallId update, id ∈ ids then (.live ids, false, [])
      else (.live ids, false, (liveAction update).calls) := by
  cases update with
  | sessionInfoUpdate _ | configOptionUpdate _ => exact absurd h nofun
  | userMessageChunk _ | agentMessageChunk _ | agentThoughtChunk _ | toolCall _ _ _
  | toolCallUpdate _ _ _ _ | other => rfl

/-- Before the phase `Live` nothing but metadata reaches the writer. -/
theorem calls_eq_nil (hphase : ∀ seen, phase ≠ .live seen) (h : update.isMetadata = false) :
    (sessionNotification phase update).2.2 = [] := by
  rw [notification_eq h]
  cases phase with
  | live seen => exact absurd rfl (hphase seen)
  | replaying buf | waitingForPrompt ids => rfl

/-- A notification leaves the phase as it is, up to the ids. -/
theorem next_spec (phase : HandlerPhase) (update : SessionUpdate J M) :
    (sessionNotification phase update).1.rank = phase.rank ∧
      phase.replayedToolCallIds ⊆ (sessionNotification phase update).1.replayedToolCallIds ∧
      (sessionNotification phase update).1.replayedToolCallIds
        ⊆ phase.replayedToolCallIds ∪ (notificationToolCallId update).toFinset ∧
      ∀ seen, phase = .live seen → (sessionNotification phase update).1 = .live seen := by
  cases hmeta : update.isMetadata with
  | true =>
    cases update with
    | sessionInfoUpdate _ | configOptionUpdate _ =>
      exact ⟨rfl, subset_rfl, Finset.subset_union_left, fun _ h => h⟩
    | userMessageChunk _ | agentMessageChunk _ | agentThoughtChunk _ | toolCall _ _ _
    | toolCallUpdate _ _ _ _ | other => exact absurd hmeta nofun
  | false =>
    rw [notification_eq hmeta]
    cases phase with
    | replaying buf =>
      have hids := buf.receive_ids update
      exact ⟨rfl, Finset.subset_union_left.trans hids.superset, hids.subset, nofun⟩
    | waitingForPrompt ids => exact ⟨rfl, Finset.subset_union_left, subset_rfl, nofun⟩
    | live ids =>
      dsimp only
      split <;> exact ⟨rfl, subset_rfl, Finset.subset_union_left, fun _ h => h⟩

end HandlerPhase

/-- The driver reports no timeout and receives nothing. -/
def DriverStep.isTransition : DriverStep J M → Bool
  | replayDone | transitionToWaitingForPrompt | transitionToLive => true
  | _ => false

variable {ls : List (DriverStep J M)} {l : DriverStep J M}

namespace Driver

variable {d d' : Driver J M} {unsent : List StoredRole} {known : List Char → Prop}
  {update : SessionUpdate J M} {updates : List (SessionUpdate J M)}

/-- `updates` are still to come of the replay, and nothing of it has reached the writer or will. The ids
that the handler has seen are `known`. -/
structure Isolated (unsent : List StoredRole) (known : List Char → Prop) (d : Driver J M)
    (updates : List (SessionUpdate J M)) : Prop where
  replay : ∃ ids current roles, Replays ids current roles updates ∧
    ids ⊆ d.phase.replayedToolCallIds ∧
    (d.pc = .awaitingReplay →
      ∃ past buf, d.phase = .replaying buf ∧ Tracks past current (roles ++ unsent) buf) ∧
    (d.replayDone = true ∨ d.pc ≠ .awaitingReplay → Inert current roles)
  titles : ∀ call ∈ d.calls, call.isTitleUpdate = true
  live : d.pc = .prompting → ∃ seen, d.phase = .live seen
  known : ∀ id ∈ d.phase.replayedToolCallIds, known id

theorem Isolated.resume (h : Replays ∅ none roles updates) :
    (resume (roles ++ unsent)).Isolated unsent known updates where
  replay := ⟨∅, none, roles, h, subset_rfl, fun _ => ⟨[], _, rfl, .new _⟩, by simp [Driver.resume]⟩
  titles := nofun
  live := nofun
  known _ hid := absurd hid (Finset.notMem_empty _)

theorem Inert.of_append (h : Inert current (roles ++ unsent)) : Inert current roles :=
  ⟨h.1, fun role hrole => h.2 role (List.mem_append_left _ hrole)⟩

/-- An update of the replay. -/
theorem Isolated.notify (h : d.Isolated unsent known (update :: updates))
    (hknown : ∀ id ∈ notificationToolCallId update, known id) :
    (d.notify update).Isolated unsent known updates := by
  obtain ⟨ids, current, roles, hreplays, hids, htracks, hinert⟩ := h.replay
  obtain ⟨hmeta, ids', current', roles', hreplays', hids', hreceive, hstays⟩ := hreplays.next unsent
  obtain ⟨-, hmono, hnew, hlive⟩ := d.phase.next_spec update
  have hlive' : (d.notify update).pc = .prompting → ∃ seen, (d.notify update).phase = .live seen := by
    intro hpc
    obtain ⟨seen, hseen⟩ := h.live hpc
    exact ⟨seen, hlive seen hseen⟩
  have hknown' : ∀ id ∈ (d.notify update).phase.replayedToolCallIds, known id := by
    intro id hid
    rcases Finset.mem_union.mp (hnew hid) with hid | hid
    · exact h.known id hid
    · exact hknown id (Option.mem_toFinset.mp hid)
  have htitles : (∀ call ∈ (sessionNotification d.phase update).2.2, call.isTitleUpdate = true) →
      ∀ call ∈ (d.notify update).calls, call.isTitleUpdate = true := by
    intro hcalls call hcall
    rcases List.mem_append.mp hcall with hcall | hcall
    · exact h.titles call hcall
    · exact hcalls call hcall
  -- the phase decides: before the prompt the buffer takes the update, after it the replay is inert
  by_cases hpc : d.pc = .awaitingReplay
  · obtain ⟨past, buf, hphase, hbuf⟩ := htracks hpc
    obtain ⟨⟨past', hbuf'⟩, hcomplete⟩ := hreceive past buf hbuf
    have hnotify : sessionNotification d.phase update
        = (.replaying (buf.receive update).1, (buf.receive update).2, []) := by
      rw [hphase, HandlerPhase.notification_eq hmeta]
    refine ⟨⟨ids', current', roles', hreplays', ?_, fun _ => ⟨past', _, ?_, hbuf'⟩, ?_⟩, ?_, hlive',
      hknown'⟩
    · rw [Driver.notify, hnotify]
      refine hids'.trans (Finset.union_subset_union_left ?_ |>.trans (buf.receive_ids update).superset)
      rw [hphase] at hids
      exact hids
    · rw [Driver.notify, hnotify]
    · rintro (hdone | hne)
      · rw [Driver.notify, hnotify, Bool.or_eq_true] at hdone
        rcases hdone with hdone | hdone
        · exact (hstays (hinert (.inl hdone))).1
        · exact Inert.of_append (hbuf'.inert (hcomplete hdone))
      · exact absurd hpc hne
    · refine htitles fun call hcall => ?_
      rw [hnotify] at hcall
      cases hcall
  · obtain ⟨hinert', hsub, hcalls⟩ := hstays (hinert (.inr hpc))
    refine ⟨⟨ids', current', roles', hreplays', (hsub.trans hids).trans hmono,
      fun hawaiting => absurd hawaiting hpc, fun _ => hinert'⟩, ?_, hlive', hknown'⟩
    refine htitles fun call hcall => ?_
    -- a live handler drops what belongs to a replayed call; the other phases write nothing
    cases hphase : d.phase with
    | live seen =>
      rw [hphase] at hids hcall
      exact hcalls seen hids call hcall
    | replaying _ | waitingForPrompt _ =>
      rw [HandlerPhase.calls_eq_nil (by simp [hphase]) hmeta] at hcall
      cases hcall

theorem ids_transitionToWaitingForPrompt (phase : HandlerPhase) :
    phase.transitionToWaitingForPrompt.replayedToolCallIds = phase.replayedToolCallIds := by
  cases phase <;> rfl

theorem ids_transitionToLive (phase : HandlerPhase) :
    phase.transitionToLive.replayedToolCallIds = phase.replayedToolCallIds := by
  cases phase <;> rfl

/-- What the steps of `run_acp_protocol` do. -/
theorem step_transition (hl : l.isTransition = true) (hstep : d.step l = some d') :
    d'.phase.replayedToolCallIds = d.phase.replayedToolCallIds ∧ d'.calls = d.calls ∧
      d'.pc ≠ .awaitingReplay ∧ (d.replayDone = true ∨ d.pc ≠ .awaitingReplay) ∧
      (d'.pc = .prompting → ∃ seen, d'.phase = .live seen) := by
  cases l with
  | replayDone =>
    rw [step, Option.ite_none_right_eq_some, Option.some.injEq] at hstep
    obtain ⟨⟨-, hdone⟩, rfl⟩ := hstep
    exact ⟨rfl, rfl, nofun, .inl hdone, nofun⟩
  | transitionToWaitingForPrompt =>
    rw [step, Option.ite_none_right_eq_some, Option.some.injEq] at hstep
    obtain ⟨hpc, rfl⟩ := hstep
    exact ⟨ids_transitionToWaitingForPrompt _, rfl, nofun, .inr (by rw [hpc]; exact nofun), nofun⟩
  | transitionToLive =>
    rw [step, Option.ite_none_right_eq_some, Option.some.injEq] at hstep
    obtain ⟨hpc, rfl⟩ := hstep
    refine ⟨ids_transitionToLive _, rfl, nofun, .inr (by rw [hpc]; exact nofun), fun _ => ?_⟩
    cases d.phase <;> exact ⟨_, rfl⟩
  | replayed _ | live _ | replayTimeout => exact absurd hl nofun

theorem Isolated.transition (h : d.Isolated unsent known updates)
    (hl : l.isTransition = true) (hstep : d.step l = some d') :
    d'.Isolated unsent known updates := by
  obtain ⟨ids, current, roles, hreplays, hids, -, hinert⟩ := h.replay
  obtain ⟨hsame, hcalls, hpc, hleft, hlive⟩ := step_transition hl hstep
  exact ⟨⟨ids, current, roles, hreplays, hsame ▸ hids, fun hawaiting => absurd hawaiting hpc,
    fun _ => hinert hleft⟩, hcalls ▸ h.titles, hlive, hsame ▸ h.known⟩

/-- The updates of the replay in a run. -/
def replayedUpdates (ls : List (DriverStep J M)) : List (SessionUpdate J M) :=
  ls.filterMap fun l => match l with
    | .replayed update => some update
    | _ => none

/-- The live updates in a run. -/
def liveUpdates (ls : List (DriverStep J M)) : List (SessionUpdate J M) :=
  ls.filterMap fun l => match l with
    | .live update => some update
    | _ => none

theorem Isolated.run (h : d.Isolated unsent known (replayedUpdates ls ++ updates))
    (hknown : ∀ u ∈ replayedUpdates ls, ∀ id ∈ notificationToolCallId u, known id)
    (hlive : liveUpdates ls = []) (htimeout : .replayTimeout ∉ ls)
    (hrun : Builderbot.run step d ls = some d') : d'.Isolated unsent known updates := by
  induction ls generalizing d with
  | nil =>
    rw [run_nil, Option.some.injEq] at hrun
    exact hrun ▸ h
  | cons l ls ih =>
    obtain ⟨u, hstep, hrest⟩ := run_cons_eq_some.mp hrun
    have htimeout' : .replayTimeout ∉ ls := fun hmem => htimeout (List.mem_cons_of_mem _ hmem)
    cases l with
    | replayed update =>
      obtain rfl := Option.some.inj hstep
      exact ih (h.notify (hknown update List.mem_cons_self))
        (fun v hv => hknown v (List.mem_cons_of_mem _ hv)) hlive htimeout' hrest
    | live update => exact absurd hlive (List.cons_ne_nil _ _)
    | replayTimeout => exact absurd List.mem_cons_self htimeout
    | replayDone | transitionToWaitingForPrompt | transitionToLive =>
      exact ih (h.transition rfl hstep) hknown hlive htimeout' hrest

/-- The live updates `lives` have reached the writer after `titles`. -/
structure Forwards (known : List Char → Prop) (titles : List (WriterCall J M))
    (lives : List (SessionUpdate J M)) (d : Driver J M) : Prop where
  calls : d.calls = titles ++ lives.flatMap delivered
  live : d.pc = .prompting → ∃ seen, d.phase = .live seen
  known : ∀ id ∈ d.phase.replayedToolCallIds, known id

theorem Forwards.notify {titles : List (WriterCall J M)} {lives : List (SessionUpdate J M)}
    (h : d.Forwards known titles lives) (hpc : d.pc = .prompting)
    (hfresh : ∀ id ∈ notificationToolCallId update, ¬ known id) :
    (d.notify update).Forwards known titles (lives ++ [update]) := by
  obtain ⟨seen, hseen⟩ := h.live hpc
  have hnext : (d.notify update).phase = .live seen := (d.phase.next_spec update).2.2.2 seen hseen
  have hknown := h.known
  rw [hseen] at hknown
  refine ⟨?_, fun _ => ⟨seen, hnext⟩, hnext ▸ hknown⟩
  have hcalls : (sessionNotification (.live seen) update).2.2 = delivered update :=
    calls_fresh update fun id hid hmem => hfresh id hid (hknown id hmem)
  rw [Driver.notify, h.calls, hseen, hcalls, List.flatMap_append, List.flatMap_singleton,
    List.append_assoc]

theorem Forwards.run {titles : List (WriterCall J M)} {lives : List (SessionUpdate J M)}
    (h : d.Forwards known titles lives)
    (hfresh : ∀ u ∈ liveUpdates ls, ∀ id ∈ notificationToolCallId u, ¬ known id)
    (hreplayed : replayedUpdates ls = []) (htimeout : .replayTimeout ∉ ls)
    (hrun : Builderbot.run step d ls = some d') :
    d'.Forwards known titles (lives ++ liveUpdates ls) := by
  induction ls generalizing d lives with
  | nil =>
    rw [run_nil, Option.some.injEq] at hrun
    exact (List.append_nil lives).symm ▸ hrun ▸ h
  | cons l ls ih =>
    obtain ⟨u, hstep, hrest⟩ := run_cons_eq_some.mp hrun
    have htimeout' : .replayTimeout ∉ ls := fun hmem => htimeout (List.mem_cons_of_mem _ hmem)
    cases l with
    | replayed update => exact absurd hreplayed (List.cons_ne_nil _ _)
    | replayTimeout => exact absurd List.mem_cons_self htimeout
    | live update =>
      rw [step, Option.ite_none_right_eq_some, Option.some.injEq] at hstep
      obtain ⟨hpc, rfl⟩ := hstep
      have hnotify := h.notify hpc (hfresh update List.mem_cons_self)
      have hforwards := ih hnotify (fun v hv => hfresh v (List.mem_cons_of_mem _ hv)) hreplayed
        htimeout' hrest
      rwa [List.append_assoc] at hforwards
    | replayDone | transitionToWaitingForPrompt | transitionToLive =>
      obtain ⟨hsame, hcalls, -, -, hlive⟩ := step_transition rfl hstep
      exact ih ⟨hcalls.trans h.calls, hlive, hsame ▸ h.known⟩ hfresh hreplayed htimeout' hrest

/-- Phases only move forward. -/
theorem step_rank (hstep : d.step l = some d') : d.phase.rank ≤ d'.phase.rank := by
  have hnotify : ∀ update, (d.notify update).phase.rank = d.phase.rank :=
    fun update => (d.phase.next_spec update).1
  cases l with
  | replayed update =>
    obtain rfl := Option.some.inj hstep
    exact (hnotify update).ge
  | live update =>
    rw [step, Option.ite_none_right_eq_some, Option.some.injEq] at hstep
    exact hstep.2 ▸ (hnotify update).ge
  | replayDone | replayTimeout =>
    rw [step, Option.ite_none_right_eq_some, Option.some.injEq] at hstep
    exact hstep.2 ▸ le_rfl
  | transitionToWaitingForPrompt | transitionToLive =>
    rw [step, Option.ite_none_right_eq_some, Option.some.injEq] at hstep
    rw [← hstep.2]
    cases d.phase <;> simp [HandlerPhase.rank, HandlerPhase.transitionToWaitingForPrompt,
      HandlerPhase.transitionToLive]

theorem run_rank (hrun : Builderbot.run step d ls = some d') : d.phase.rank ≤ d'.phase.rank := by
  induction ls generalizing d with
  | nil =>
    rw [run_nil, Option.some.injEq] at hrun
    exact hrun ▸ le_rfl
  | cons l ls ih =>
    obtain ⟨u, hstep, hrest⟩ := run_cons_eq_some.mp hrun
    exact (step_rank hstep).trans (ih hrest)

/-- In `ls` the agent replays the stored messages, or begins to; in `ls'` it answers the prompt. The
driver leaves the replay because completion was reported. -/
structure ReplaysThenAnswers (stored : List StoredRole) (ls ls' : List (DriverStep J M)) : Prop where
  replay : ∃ rest, Replays ∅ none stored (replayedUpdates ls ++ rest)
  replayFirst : liveUpdates ls = [] ∧ replayedUpdates ls' = []
  fresh : ∀ u ∈ liveUpdates ls', ∀ id ∈ notificationToolCallId u,
    ∀ v ∈ replayedUpdates ls, notificationToolCallId v ≠ some id
  completion : .replayTimeout ∉ ls ++ ls'

/-- Of a replay nothing but title updates can reach the writer, and what is live reaches it in order.
`unsent` are stored messages that the agent does not replay, such as the new prompt. -/
theorem replay_isolated (stored unsent : List StoredRole) (ls ls' : List (DriverStep J M))
    (d : Driver J M) (h : ReplaysThenAnswers stored ls ls')
    (hrun : Builderbot.run step (resume (stored ++ unsent)) (ls ++ ls') = some d) :
    (∃ titles, d.calls = titles ++ (liveUpdates ls').flatMap delivered ∧
      ∀ call ∈ titles, call.isTitleUpdate = true) ∧
    ∀ pre post, ls ++ ls' = pre ++ post → ∀ s,
      Builderbot.run step (resume (stored ++ unsent)) pre = some s → s.phase.rank ≤ d.phase.rank := by
  constructor
  · obtain ⟨rest, hreplays⟩ := h.replay
    obtain ⟨u, hu, hrest⟩ := run_append_eq_some.mp hrun
    obtain ⟨htimeout, htimeout'⟩ := not_or.mp (List.mem_append.not.mp h.completion)
    let known : List Char → Prop := fun id =>
      ∃ v ∈ replayedUpdates ls, notificationToolCallId v = some id
    have hisolated : u.Isolated unsent known rest :=
      (Isolated.resume hreplays).run (fun v hv id hid => ⟨v, hv, hid⟩) h.replayFirst.1 htimeout hu
    have hforwards : u.Forwards known u.calls [] :=
      ⟨(List.append_nil _).symm, hisolated.live, hisolated.known⟩
    have hend := hforwards.run (fun v hv id hid ⟨w, hw, heq⟩ => h.fresh v hv id hid w hw heq)
      h.replayFirst.2 htimeout' hrest
    exact ⟨u.calls, hend.calls, hisolated.titles⟩
  · intro pre post hsplit s hs
    rw [hsplit] at hrun
    obtain ⟨v, hv, hrest⟩ := run_append_eq_some.mp hrun
    obtain rfl := Option.some.inj (hs.symm.trans hv)
    exact run_rank hrest

/-- A replay of two tool calls and their results, the first result in two updates. Completion is
reported with the second of them. -/
def parallelCalls : List (DriverStep Unit Unit) :=
  [.replayed (.userMessageChunk (.text ['q'])), .replayed (.toolCall ['a'] ['A'] none),
    .replayed (.toolCall ['b'] ['B'] none), .replayed (.toolCallUpdate ['a'] none none (some [])),
    .replayed (.toolCallUpdate ['a'] none none (some [])), .replayDone,
    .transitionToWaitingForPrompt, .transitionToLive,
    .replayed (.toolCallUpdate ['b'] none none (some [.terminal ['t']]))]

theorem parallelCalls_replays : Replays ∅ none [.user, .toolCall, .toolCall, .toolResult, .toolResult]
    (replayedUpdates parallelCalls ++ []) :=
  .text .user ['q'] rfl (List.cons_ne_nil _ _) <| .toolCall <| .toolCall <|
    .toolResult (by decide) <| .moreResult (by decide) <| .toolResult (by decide) .nil

theorem parallelCalls_isolated :
    ∃ d, Builderbot.run step
        (resume ([.user, .toolCall, .toolCall, .toolResult, .toolResult] ++ [.user]))
        (parallelCalls ++ [.live (.agentMessageChunk (.text ['o', 'k']))]) = some d ∧
      ∃ titles, d.calls = titles ++ [.appendText ['o', 'k']] ∧
        ∀ call ∈ titles, call.isTitleUpdate = true := by
  obtain ⟨d, hd⟩ := Option.isSome_iff_exists.mp (show (Builderbot.run step
    (resume ([.user, .toolCall, .toolCall, .toolResult, .toolResult] ++ [.user]))
    (parallelCalls ++ [.live (.agentMessageChunk (.text ['o', 'k']))])).isSome = true by rfl)
  have hresumes : ReplaysThenAnswers [.user, .toolCall, .toolCall, .toolResult, .toolResult]
      parallelCalls [.live (.agentMessageChunk (.text ['o', 'k']))] :=
    ⟨⟨[], parallelCalls_replays⟩, ⟨rfl, rfl⟩, by decide, by decide⟩
  exact ⟨d, hd, (replay_isolated _ _ _ _ d hresumes hd).1⟩

/-- After a tool call was replayed, a live update has content without a preview. -/
def emptyContent : SessionUpdate Unit Unit := .toolCallUpdate ['b'] none none (some [])

def updatesWithoutPreview : List (DriverStep Unit Unit) :=
  [.replayed (.toolCall ['a'] ['A'] none), .replayDone, .transitionToWaitingForPrompt,
    .transitionToLive]

/-- The update does not reach the writer. -/
theorem emptyContent_dropped :
    ReplaysThenAnswers [.toolCall] updatesWithoutPreview [.live emptyContent] ∧
      ∃ d, Builderbot.run step (resume [.toolCall]) (updatesWithoutPreview ++ [.live emptyContent])
          = some d ∧ d.calls = [] :=
  ⟨⟨⟨[], .toolCall .nil⟩, ⟨rfl, rfl⟩, by decide, by decide⟩, _, rfl, rfl⟩

end Driver

end Builderbot.AcpClient
