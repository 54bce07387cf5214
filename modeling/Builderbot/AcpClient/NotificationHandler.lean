import Mathlib.Data.Finset.Option
import Builderbot.Lib.Run
import Builderbot.Lib.Utf8

/-!
# The notification handler and the replay of a session

`AcpNotificationHandler` of `crates/acp-client/src/driver.rs`. When a session is resumed the agent first
sends its history again, and the handler must keep this replay from the `MessageWriter`. It matches the
roles of the replayed messages against the stored ones with a cursor and reports completion once the
cursor has passed the last stored message that is not a user message. `run_acp_protocol` waits for
this report, or for a timeout, and then sends the prompt.
-/

namespace Builderbot.AcpClient

open Lib

/-! ## Notifications -/

/-- The roles of stored messages. -/
inductive StoredRole where
  | user
  | assistant
  | toolCall
  | toolResult
deriving DecidableEq, Repr

/-- The role of a message that is replayed as text. -/
def StoredRole.isText : StoredRole → Bool
  | user | assistant => true
  | toolCall | toolResult => false

/-- `ContentBlock`; the handler looks at text only. -/
inductive ContentBlock where
  | text (text : List Char)
  | other
deriving DecidableEq, Repr

inductive ToolCallContent where
  | content (block : ContentBlock)
  | diff (path : List Char) (oldText : Option (List Char))
  | terminal (terminalId : List Char)
  | other
deriving DecidableEq, Repr

/-- `SessionUpdate`. Raw inputs are JSON values of the type `J`, session metadata are of the type `M`,
and `other` stands for the updates that the handler ignores. -/
inductive SessionUpdate (J M : Type*) where
  | userMessageChunk (content : ContentBlock)
  | agentMessageChunk (content : ContentBlock)
  | agentThoughtChunk (content : ContentBlock)
  | toolCall (toolCallId title : List Char) (rawInput : Option J)
  | toolCallUpdate (toolCallId : List Char) (title : Option (List Char)) (rawInput : Option J)
      (content : Option (List ToolCallContent))
  | sessionInfoUpdate (info : M)
  | configOptionUpdate (configOptions : M)
  | other
deriving DecidableEq, Repr

/-- The calls that a handler makes on its `MessageWriter`. -/
inductive WriterCall (J M : Type*) where
  | appendText (text : List Char)
  | recordToolCall (toolCallId title : List Char) (rawInput : Option J)
  | updateToolCallTitle (toolCallId : List Char) (title : Option (List Char)) (rawInput : Option J)
  | recordToolResult (content : List Char)
  | onSessionInfoUpdate (info : M)
  | onConfigOptionUpdate (configOptions : M)
deriving DecidableEq, Repr

/-- `extract_content_preview`. The length that decides about the ellipsis is in bytes. -/
def extractContentPreview : List ToolCallContent → Option (List Char)
  | [] => none
  | .content (.text text) :: _ =>
    some (if 500 < (Utf8.encode text).length then text.take 500 ++ ['…'] else text.take 500)
  | .diff path oldText :: _ =>
    some (path ++ (if oldText.isSome then " (modified)" else " (new)").toList)
  | .terminal terminalId :: _ => some ("Terminal: ".toList ++ terminalId)
  | .content .other :: content | .other :: content => extractContentPreview content

variable {J M : Type*}

/-- `notification_tool_call_id`. -/
def notificationToolCallId : SessionUpdate J M → Option (List Char)
  | .toolCall toolCallId .. | .toolCallUpdate toolCallId .. => some toolCallId
  | _ => none

/-! ## The replay buffer -/

/-- `ReplayBuffer`. Of the stored messages only the roles are looked at. -/
structure ReplayBuffer where
  dbMessages : List StoredRole
  matchCursor : ℕ := 0
  targetIndex : Option ℕ
  currentText : List Char := []
  currentRole : Option StoredRole := none
  replayedToolCallIds : Finset (List Char) := ∅

/-- The index of the last message that is not a user message. -/
def lastNonUser (roles : List StoredRole) : Option ℕ :=
  (roles.zipIdx.reverse.find? fun m => m.1 ≠ .user).map (·.2)

namespace ReplayBuffer

/-- `ReplayBuffer::new`. -/
def new (dbMessages : List StoredRole) : ReplayBuffer :=
  { dbMessages, targetIndex := lastNonUser dbMessages }

variable (buf : ReplayBuffer)

/-- `is_complete`. -/
def isComplete : Bool :=
  match buf.targetIndex with
  | some target => target < buf.matchCursor
  | none => true

/-- `try_match`: the cursor stays where it is when the role is another one. -/
def tryMatch (role : StoredRole) : ReplayBuffer × Bool :=
  match buf.dbMessages[buf.matchCursor]? with
  | none => (buf, buf.isComplete)
  | some dbRole =>
    let buf := if role = dbRole then { buf with matchCursor := buf.matchCursor + 1 } else buf
    (buf, buf.isComplete)

/-- `finalize_current`. -/
def finalizeCurrent : ReplayBuffer × Bool :=
  match buf.currentRole with
  | some role =>
    if buf.currentText ≠ [] then
      { buf with currentRole := none, currentText := [] }.tryMatch role
    else ({ buf with currentRole := none }, false)
  | none => (buf, false)

/-- A text chunk of a message with the role. -/
def pushText (role : StoredRole) (text : List Char) : ReplayBuffer × Bool :=
  if buf.currentRole ≠ some role then
    let finalized := buf.finalizeCurrent
    ({ finalized.1 with
        currentRole := some role
        currentText := finalized.1.currentText ++ text }, finalized.2)
  else ({ buf with currentText := buf.currentText ++ text }, false)

/-- The branch of `session_notification` for the phase `Replaying`; the flag is `completed`. -/
def receive (update : SessionUpdate J M) : ReplayBuffer × Bool :=
  let buf := { buf with
    replayedToolCallIds := buf.replayedToolCallIds ∪ (notificationToolCallId update).toFinset }
  match update with
  | .agentMessageChunk (.text text) => buf.pushText .assistant text
  | .userMessageChunk (.text text) => buf.pushText .user text
  | .toolCall .. => buf.finalizeCurrent.1.tryMatch .toolCall
  | .toolCallUpdate _ _ _ (some _) => buf.finalizeCurrent.1.tryMatch .toolResult
  | _ => (buf, false)

end ReplayBuffer

/-! ## The handler -/

inductive HandlerPhase where
  | replaying (buf : ReplayBuffer)
  | waitingForPrompt (replayedToolCallIds : Finset (List Char))
  | live (replayedToolCallIds : Finset (List Char))

namespace HandlerPhase

/-- The tool-call ids that were seen so far. -/
def replayedToolCallIds : HandlerPhase → Finset (List Char)
  | replaying buf => buf.replayedToolCallIds
  | waitingForPrompt ids | live ids => ids

/-- The order of the phases. -/
def rank : HandlerPhase → ℕ
  | replaying _ => 0
  | waitingForPrompt _ => 1
  | live _ => 2

/-- `transition_to_waiting_for_prompt`. -/
def transitionToWaitingForPrompt : HandlerPhase → HandlerPhase
  | replaying buf => waitingForPrompt buf.replayedToolCallIds
  | phase => phase

/-- `transition_to_live`. -/
def transitionToLive : HandlerPhase → HandlerPhase
  | waitingForPrompt ids => live ids
  | replaying buf => live buf.replayedToolCallIds
  | live ids => live ids

end HandlerPhase

/-- The action of `session_notification` in the phase `Live`, for an update that passes the safety net. -/
inductive LiveAction (J : Type*) where
  | appendText (text : List Char)
  | recordToolCall (id title : List Char) (rawInput : Option J)
  | toolCallUpdate (id : List Char) (title : Option (List Char)) (rawInput : Option J)
      (result : Option (List Char))
  | ignore
  | drop
deriving DecidableEq, Repr

/-- How the action is determined. -/
def liveAction : SessionUpdate J M → LiveAction J
  | .agentMessageChunk (.text text) => .appendText text
  | .agentMessageChunk .other => .drop
  | .toolCall toolCallId title rawInput => .recordToolCall toolCallId title rawInput
  | .toolCallUpdate toolCallId title rawInput content =>
    let result := content.bind extractContentPreview
    if title.isSome ∨ rawInput.isSome ∨ result.isSome then
      .toolCallUpdate toolCallId title rawInput result
    else .drop
  | _ => .ignore

/-- How the action is executed. -/
def LiveAction.calls : LiveAction J → List (WriterCall J M)
  | appendText text => [.appendText text]
  | recordToolCall id title rawInput => [.recordToolCall id title rawInput]
  | toolCallUpdate id title rawInput result =>
    (if title.isSome ∨ rawInput.isSome then [.updateToolCallTitle id title rawInput] else []) ++
      (result.map WriterCall.recordToolResult).toList
  | ignore | drop => []

/-- `session_notification`: the next phase, whether completion is reported, and the calls. -/
def sessionNotification (phase : HandlerPhase) (update : SessionUpdate J M) :
    HandlerPhase × Bool × List (WriterCall J M) :=
  match update with
  | .sessionInfoUpdate info => (phase, false, [.onSessionInfoUpdate info])
  | .configOptionUpdate configOptions => (phase, false, [.onConfigOptionUpdate configOptions])
  | update =>
    match phase with
    | .replaying buf =>
      (.replaying (buf.receive update).1, (buf.receive update).2, [])
    | .waitingForPrompt ids =>
      (.waitingForPrompt (ids ∪ (notificationToolCallId update).toFinset), false, [])
    | .live ids =>
      if ∃ id ∈ notificationToolCallId update, id ∈ ids then (.live ids, false, [])
      else (.live ids, false, (liveAction update).calls)

/-! ## The driver -/

/-- Where `run_acp_protocol` stands. -/
inductive DriverPc where
  | awaitingReplay
  | replayEnded
  | promptReady
  | prompting
deriving DecidableEq, Repr

/-- A driver that resumes a session. `replayDone` is the permit of the `Notify`, and `calls` is the log
of what has reached the writer. -/
structure Driver (J M : Type*) where
  pc : DriverPc := .awaitingReplay
  phase : HandlerPhase
  replayDone : Bool := false
  calls : List (WriterCall J M) := []

/-- The steps of a resumption. The agent answers a prompt after it has been sent. -/
inductive DriverStep (J M : Type*) where
  | replayed (update : SessionUpdate J M)
  | live (update : SessionUpdate J M)
  /-- The loop ends because completion was reported. -/
  | replayDone
  /-- The loop ends because of the deadline or because the replay has been idle. -/
  | replayTimeout
  | transitionToWaitingForPrompt
  | transitionToLive
deriving DecidableEq, Repr

namespace Driver

/-- The driver of a session with the stored messages. -/
def resume (dbMessages : List StoredRole) : Driver J M :=
  { phase := .replaying (.new dbMessages) }

variable (d : Driver J M)

def notify (update : SessionUpdate J M) : Driver J M :=
  let next := sessionNotification d.phase update
  { d with
    phase := next.1
    replayDone := d.replayDone || next.2.1
    calls := d.calls ++ next.2.2 }

def step : DriverStep J M → Option (Driver J M)
  | .replayed update => some (d.notify update)
  | .live update => if d.pc = .prompting then some (d.notify update) else none
  | .replayDone =>
    if d.pc = .awaitingReplay ∧ d.replayDone = true then
      some { d with pc := .replayEnded, replayDone := false }
    else none
  | .replayTimeout =>
    if d.pc = .awaitingReplay then some { d with pc := .replayEnded } else none
  | .transitionToWaitingForPrompt =>
    if d.pc = .replayEnded then
      some { d with pc := .promptReady, phase := d.phase.transitionToWaitingForPrompt }
    else none
  | .transitionToLive =>
    if d.pc = .promptReady then
      some { d with pc := .prompting, phase := d.phase.transitionToLive }
    else none

end Driver

end Builderbot.AcpClient
