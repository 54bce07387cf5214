import Builderbot.Git.Types
import Builderbot.Lib.Run
import Builderbot.Lib.Table

/-!
# The action executor

`ActionExecutor` of `crates/builderbot-actions/src/executor.rs`. Each execution has its readers, one for each
stream of the process, and a completion thread. The maps `running` and `completed` have a lock each. The buffer of
an execution is shared by its readers, its entry in `running` and the completion thread.

A step of the system is one critical section of one thread, an event, a system call or a change in the operating
system. Only the completion thread holds the lock of `running` over several steps. Executions are numbered as they
start, and their numbers stand for their ids.
-/

namespace Builderbot.Actions

open Git (Text)

inductive OutputStream where
  | stdout
  | stderr
deriving DecidableEq, Repr

structure OutputChunk where
  chunk : Text
  stream : OutputStream
  timestamp : ℤ
deriving DecidableEq, Repr

inductive ActionStatus where
  | running
  | completed
  | failed
  | stopped
deriving DecidableEq, Repr

/-- Where a reader is in the loop of `spawn_stream_reader`. -/
inductive ReaderPhase where
  | reading
  | read (chunk : OutputChunk)
  /-- The chunk is in the buffer, and its event is yet to come. -/
  | stored (chunk : OutputChunk)
  | finished
deriving DecidableEq, Repr

/-- How far the completion thread is. It has the lock of `running` in `removed` and `copied`. -/
inductive CompletionPhase where
  | waiting
  | waited
  | flagged
  | removed
  | copied
  | inserted
  | finished
deriving DecidableEq, Repr

def CompletionPhase.rank : CompletionPhase → ℕ
  | .waiting => 0
  | .waited => 1
  | .flagged => 2
  | .removed => 3
  | .copied => 4
  | .inserted => 5
  | .finished => 6

/-- An execution with its threads and its process. -/
structure Execution where
  pid : ℕ
  readers : OutputStream → ReaderPhase
  buffer : List OutputChunk := []
  /-- The `Output` events, in order. -/
  outputs : List OutputChunk := []
  phase : CompletionPhase := .waiting
  /-- What the completion thread has copied from the buffer. -/
  taken : List OutputChunk := []
  wasStopped : Bool := false
  /-- The process has exited, with the code if it was not killed. -/
  exit : Option (Option ℤ) := none
  /-- The status of the `StatusChanged` event. -/
  status : Option (ActionStatus × Option ℤ) := none
  /-- No process of the session is left. -/
  vacated : Bool := false

/-- `RunningActionState`, without the buffer. -/
structure RunningActionState where
  childPid : Option ℕ
deriving DecidableEq, Repr

/-- Whose session a session id belongs to. -/
inductive SessionOwner where
  | action (id : ℕ)
  | other (n : ℕ)
deriving DecidableEq, Repr

/-- A call of `get_buffered_output`. -/
structure Lookup where
  id : ℕ
  /-- The execution had started when the call began. -/
  registered : Bool
  /-- It was not in `running`. -/
  missed : Bool := false
deriving DecidableEq, Repr

/-- The result of a call of `get_buffered_output`. -/
structure Answer where
  id : ℕ
  registered : Bool
  /-- The execution was cleared by then. -/
  cleared : Bool
  output : Option (List OutputChunk)
deriving DecidableEq, Repr

/-- Where a call of `stop_with_options` is, or the thread that it has started. -/
inductive StopPhase where
  | marked
  | pidRead (pid : ℕ)
  | graceful (pid : ℕ)
  | returned
deriving DecidableEq, Repr

structure StopCall where
  id : ℕ
  /-- There is a `force_kill_after`. -/
  force : Bool
  phase : StopPhase := .marked
deriving DecidableEq, Repr

/-- A signal that went to a session because of a call to stop the execution. -/
structure Signal where
  id : ℕ
  target : SessionOwner
deriving DecidableEq, Repr

structure Executor where
  executions : List Execution := []
  running : Table ℕ RunningActionState := ∅
  completed : Table ℕ (List OutputChunk) := ∅
  stopped : List ℕ := []
  /-- The completion thread that has the lock of `running`. -/
  moving : Option ℕ := none
  /-- The executions for which `clear_execution` has returned `true`. -/
  cleared : List ℕ := []
  lookups : List Lookup := []
  answers : List Answer := []
  /-- The sessions of the operating system. -/
  sessions : Table ℕ SessionOwner := ∅
  stops : List StopCall := []
  signals : List Signal := []

inductive ExecutorEvent where
  /-- A process is started in a session of its own, with a PTY or with two pipes, and is entered in `running`. -/
  | start (pid : ℕ) (pty : Bool)
  | read (id : ℕ) (stream : OutputStream) (bytes : List UInt8) (timestamp : ℤ)
  | store (id : ℕ) (stream : OutputStream)
  | emit (id : ℕ) (stream : OutputStream)
  /-- The end of the stream, or an error. -/
  | eof (id : ℕ) (stream : OutputStream)
  | wait (id : ℕ)
  | takeFlag (id : ℕ)
  | remove (id : ℕ)
  | copy (id : ℕ)
  | insert (id : ℕ)
  | report (id : ℕ)
  | getBufferedOutput (id : ℕ)
  | lookRunning (call : ℕ)
  | lookCompleted (call : ℕ)
  | clearExecution (id : ℕ)
  | stop (id : ℕ) (force : Bool)
  | readPid (call : ℕ)
  /-- `SIGHUP` to the process group, which may have ended before its session. -/
  | hangUp (call : ℕ) (groupGone : Bool)
  /-- `kill_session` with `SIGKILL`, after the grace period. -/
  | kill (call : ℕ)
  | exit (id : ℕ) (code : Option ℤ)
  /-- The last process of the session is gone. -/
  | vacate (id : ℕ)
  | otherStart (pid n : ℕ)
  | otherEnd (pid : ℕ)

/-- The readers of a process with a PTY, or with two pipes. -/
def readersFor (pty : Bool) : OutputStream → ReaderPhase
  | .stdout => .reading
  | .stderr => if pty then .finished else .reading

namespace Execution

variable (e : Execution)

def setReader (stream : OutputStream) (phase : ReaderPhase) : Execution :=
  { e with readers := Function.update e.readers stream phase }

/-- `stream.read`. -/
def read (stream : OutputStream) (bytes : List UInt8) (timestamp : ℤ) : Option Execution :=
  if e.readers stream = .reading ∧ bytes ≠ [] ∧ bytes.length ≤ 1024 then
    some (e.setReader stream (.read ⟨Lib.Text.fromUtf8Lossy bytes, stream, timestamp⟩))
  else none

/-- The chunk goes into the buffer. -/
def store (stream : OutputStream) : Option Execution :=
  match e.readers stream with
  | .read chunk => some { e.setReader stream (.stored chunk) with buffer := e.buffer ++ [chunk] }
  | .reading | .stored _ | .finished => none

def emit (stream : OutputStream) : Option Execution :=
  match e.readers stream with
  | .stored chunk => some { e.setReader stream .reading with outputs := e.outputs ++ [chunk] }
  | .reading | .read _ | .finished => none

def eof (stream : OutputStream) : Option Execution :=
  if e.readers stream = .reading then some (e.setReader stream .finished) else none

/-- The status at the end of the completion thread. -/
def finalStatus : ActionStatus :=
  if e.wasStopped then .stopped else if e.exit = some (some 0) then .completed else .failed

/-- All threads of the execution are at their end. -/
def Finished : Prop := (∀ stream, e.readers stream = .finished) ∧ e.phase = .finished

end Execution

namespace Executor

variable (s : Executor)

def setExecution (id : ℕ) (e : Execution) : Executor := { s with executions := s.executions.set id e }

/-- A step of the execution. -/
def inExecution (id : ℕ) (f : Execution → Option Execution) : Option Executor :=
  (s.executions[id]?).bind fun e => (f e).map (s.setExecution id)

/-- A step of the completion thread from one phase to another one. -/
def advance (id : ℕ) (old new : CompletionPhase) (f : Execution → Option Execution) : Option Executor :=
  s.inExecution id fun e => if e.phase = old then (f e).map fun e' => { e' with phase := new } else none

def setStop (call : ℕ) (stop : StopCall) (phase : StopPhase) : Executor :=
  { s with stops := s.stops.set call { stop with phase } }

/-- What a signal to the session with the pid reaches. -/
def signal (id pid : ℕ) : Executor :=
  match s.sessions.lookup pid with
  | some target => { s with signals := s.signals ++ [⟨id, target⟩] }
  | none => s

def answer (call : ℕ) (l : Lookup) (output : Option (List OutputChunk)) : Executor :=
  { s with
    lookups := s.lookups.eraseIdx call
    answers := s.answers ++ [⟨l.id, l.registered, l.id ∈ s.cleared, output⟩] }

/-- `get_buffered_output` without interruption. -/
def bufferedOutput (id : ℕ) : Option (List OutputChunk) :=
  match s.running.lookup id with
  | some _ => (s.executions[id]?).map Execution.buffer
  | none => s.completed.lookup id

def step : ExecutorEvent → Option Executor
  | .start pid pty =>
    if s.moving = none ∧ s.sessions.lookup pid = none then
      let id := s.executions.length
      some { s with
        executions := s.executions ++ [{ pid, readers := readersFor pty }]
        running := s.running.insert id ⟨some pid⟩
        sessions := s.sessions.insert pid (.action id) }
    else none
  | .read id stream bytes timestamp => s.inExecution id fun e => e.read stream bytes timestamp
  | .store id stream => s.inExecution id fun e => e.store stream
  | .emit id stream => s.inExecution id fun e => e.emit stream
  | .eof id stream => s.inExecution id fun e => e.eof stream
  | .wait id => s.advance id .waiting .waited fun e => if e.exit.isSome then some e else none
  | .takeFlag id =>
    (s.advance id .waited .flagged fun e => some { e with wasStopped := decide (id ∈ s.stopped) }).map fun t =>
      { t with stopped := s.stopped.erase id }
  | .remove id =>
    if s.moving = none then
      match s.running.lookup id with
      | some _ => (s.advance id .flagged .removed some).map fun t =>
        { t with running := s.running.erase id, moving := some id }
      | none => s.advance id .flagged .inserted some
    else none
  | .copy id => s.advance id .removed .copied fun e => some { e with taken := e.buffer }
  | .insert id => (s.executions[id]?).bind fun e =>
    (s.advance id .copied .inserted some).map fun t =>
      { t with completed := s.completed.insert id e.taken, moving := none }
  | .report id => s.advance id .inserted .finished fun e => some { e with status := some (e.finalStatus, e.exit.join) }
  | .getBufferedOutput id => some { s with lookups := s.lookups ++ [⟨id, decide (id < s.executions.length), false⟩] }
  | .lookRunning call => (s.lookups[call]?).bind fun l =>
    if s.moving = none ∧ l.missed = false then
      match s.running.lookup l.id with
      | some _ => some (s.answer call l ((s.executions[l.id]?).map Execution.buffer))
      | none => some { s with lookups := s.lookups.set call { l with missed := true } }
    else none
  | .lookCompleted call => (s.lookups[call]?).bind fun l =>
    if l.missed then some (s.answer call l (s.completed.lookup l.id)) else none
  | .clearExecution id =>
    some (match s.completed.lookup id with
      | some _ => { s with completed := s.completed.erase id, cleared := id :: s.cleared }
      | none => s)
  | .stop id force => some { s with stopped := id :: s.stopped.erase id, stops := s.stops ++ [⟨id, force, .marked⟩] }
  | .readPid call => (s.stops[call]?).bind fun c =>
    if s.moving = none ∧ c.phase = .marked then
      match (s.running.lookup c.id).bind RunningActionState.childPid with
      | some pid => some (s.setStop call c (.pidRead pid))
      | none => some (s.setStop call c .returned)
    else none
  | .hangUp call groupGone => (s.stops[call]?).bind fun c =>
    match c.phase with
    | .pidRead pid =>
      let alreadyDead := groupGone || (s.sessions.lookup pid).isNone
      let t := if groupGone then s else s.signal c.id pid
      some (t.setStop call c (if c.force && !alreadyDead then .graceful pid else .returned))
    | .marked | .graceful _ | .returned => none
  | .kill call => (s.stops[call]?).bind fun c =>
    match c.phase with
    | .graceful pid => some ((s.signal c.id pid).setStop call c .returned)
    | .marked | .pidRead _ | .returned => none
  | .exit id code => s.inExecution id fun e => if e.exit = none then some { e with exit := some code } else none
  | .vacate id => (s.executions[id]?).bind fun e =>
    if CompletionPhase.waited.rank ≤ e.phase.rank ∧ e.vacated = false then
      some { s.setExecution id { e with vacated := true } with sessions := s.sessions.erase e.pid }
    else none
  | .otherStart pid n =>
    if s.sessions.lookup pid = none then some { s with sessions := s.sessions.insert pid (.other n) } else none
  | .otherEnd pid =>
    match s.sessions.lookup pid with
    | some (.other _) => some { s with sessions := s.sessions.erase pid }
    | some (.action _) | none => none

end Executor

end Builderbot.Actions
