import Builderbot.Git.Types
import Builderbot.Lib.Run
import Builderbot.Lib.Table

/-!
# The shell environment cache

`ShellEnvCache` of `apps/staged/src-tauri/src/shell_env.rs`. Callers of `get` and `get_blocking` for a directory share
one capture: an `InFlight` entry of the map points to its promise, where blocking callers wait, and to its channel, where
the others do. A step is one critical section of a caller, or one write to the channel.

A capture is run by the caller that made its entry. Its steps, and what happens to it when the caller is cancelled or
panics, are those of the capture here; the caller returns when the capture has dropped its locals. A caller can be
cancelled where it awaits, and panic until it has stored or published the outcome.
-/

namespace Builderbot.Staged

open Git (Text)

/-- The components of a path, which are what paths are compared by. -/
abbrev PathBuf := List Text

structure ShellEnv where
  vars : List (Text × Text)
  capturedAt : ℕ
  /-- The capture that it comes from. -/
  capture : ℕ
deriving DecidableEq, Repr

/-- The result of a capture, and of a call. -/
abbrev ShellEnvResult := Except Text ShellEnv

inductive InFlightState where
  | pending
  | done (result : ShellEnvResult)
  | cancelled

inductive CachedEntry where
  | ready (env : ShellEnv)
  | inFlight (capture : ℕ)
deriving DecidableEq, Repr

/-- How far the caller that captures is. -/
inductive CapturePhase where
  /-- In `capture_shell_env`. -/
  | running
  | captured (result : ShellEnvResult)
  /-- The snapshot is in the map, and the guard is promoted. -/
  | stored (env : ShellEnv)
  /-- The promise is set. -/
  | published (result : ShellEnvResult)
  /-- The result is sent, and the locals are about to be dropped, the guard first. -/
  | sent (result : ShellEnvResult)
  /-- The caller was cancelled or has panicked. -/
  | unwinding
  /-- The guard has removed the entry, and is to cancel the promise. -/
  | evicted (result : Option ShellEnvResult)
  /-- The guard is dropped, and the sender is not. -/
  | released (result : Option ShellEnvResult)
  | finished (result : Option ShellEnvResult)

/-- A capture with its promise and its channel. -/
structure Capture where
  workingDir : PathBuf
  /-- How often the directory had been invalidated when the capture started. -/
  generation : ℕ
  phase : CapturePhase := .running
  promise : InFlightState := .pending
  /-- What was sent on the channel. -/
  value : Option ShellEnvResult := none
  /-- The sender has not been dropped. -/
  sender : Bool := true

inductive GetPhase where
  | looking
  | waiting (capture : ℕ)
  | capturing (capture : ℕ)
  /-- The call has returned, without a result if it was cancelled or has panicked. -/
  | returned (result : Option ShellEnvResult)

/-- A call of `get`, or of `get_blocking`. -/
structure GetCall where
  workingDir : PathBuf
  blocking : Bool
  /-- How often the directory had been invalidated when the call began. -/
  generation : ℕ
  phase : GetPhase := .looking

structure ShellEnvCache where
  ttl : ℕ
  now : ℕ := 0
  inner : Table PathBuf CachedEntry := ∅
  captures : List Capture := []
  calls : List GetCall := []
  /-- The invalidations so far: of a directory, or of all. -/
  invalidations : List (Option PathBuf) := []

/-! ## The steps of a capture -/

/-- `set_cancelled`: a no-op if a result was already published. -/
def InFlightState.setCancelled : InFlightState → InFlightState
  | .pending => .cancelled
  | .done result => .done result
  | .cancelled => .cancelled

namespace Capture

variable (capture : Capture)

/-- The next step of the caller that captures, but for the map. -/
def next : Option Capture :=
  match capture.phase with
  | .captured (.ok env) => some { capture with phase := .stored env }
  | .captured (.error msg) => some { capture with phase := .published (.error msg), promise := .done (.error msg) }
  | .stored env => some { capture with phase := .published (.ok env), promise := .done (.ok env) }
  | .published result => some { capture with phase := .sent result, value := some result }
  -- the guard is promoted
  | .sent (.ok env) => some { capture with phase := .finished (some (.ok env)), sender := false }
  | .sent (.error msg) => some { capture with phase := .evicted (some (.error msg)) }
  | .unwinding => some { capture with phase := .evicted none }
  | .evicted result => some { capture with phase := .released result, promise := capture.promise.setCancelled }
  | .released result => some { capture with phase := .finished result, sender := false }
  | .running | .finished _ => none

/-- The map after that step. -/
def nextInner (inner : Table PathBuf CachedEntry) : Table PathBuf CachedEntry :=
  match capture.phase with
  | .captured (.ok env) => inner.insert capture.workingDir (.ready env)
  | .sent (.error _) | .unwinding =>
    -- the guard removes the entry if it is `InFlight`
    match inner.lookup capture.workingDir with
    | some (.inFlight _) => inner.erase capture.workingDir
    | some (.ready _) | none => inner
  | .running | .captured (.error _) | .stored _ | .published _ | .sent (.ok _) | .evicted _ | .released _ | .finished _ =>
    inner

/-- The end of `capture_shell_env`. -/
def finishCapture (id now : ℕ) (outcome : Except Text (List (Text × Text))) : Option Capture :=
  match capture.phase with
  | .running => some { capture with phase := .captured (outcome.map fun vars => ⟨vars, now, id⟩) }
  | _ => none

/-- The caller is cancelled or panics. -/
def abort : Option Capture :=
  match capture.phase with
  | .running | .captured _ => some { capture with phase := .unwinding }
  | _ => none

end Capture

/-! ## The steps of a call -/

inductive ShellEnvEvent where
  | get (workingDir : PathBuf) (blocking : Bool)
  | invalidate (workingDir : PathBuf)
  | invalidateAll
  | elapse
  /-- The call at `i` looks into the map, wakes, or returns the result of its own capture. -/
  | call (i : ℕ)
  /-- The call at `i` is cancelled while it waits. -/
  | cancel (i : ℕ)
  | captured (capture : ℕ) (outcome : Except Text (List (Text × Text)))
  | capture (capture : ℕ)
  | abort (capture : ℕ)

namespace ShellEnvCache

variable (s : ShellEnvCache)

/-- How often a directory has been invalidated. -/
def generation (workingDir : PathBuf) : ℕ := s.invalidations.countP fun dir => dir.all (· = workingDir)

def setCall (i : ℕ) (call : GetCall) (phase : GetPhase) : ShellEnvCache :=
  { s with calls := s.calls.set i { call with phase } }

/-- The call at `i` becomes the one that captures. -/
def startCapture (i : ℕ) (call : GetCall) : ShellEnvCache :=
  { s.setCall i call (.capturing s.captures.length) with
    inner := s.inner.insert call.workingDir (.inFlight s.captures.length)
    captures := s.captures ++ [{ workingDir := call.workingDir, generation := s.generation call.workingDir }] }

/-- The body of the loop of `get` and `get_blocking`, in the lock of the map. -/
def look (i : ℕ) (call : GetCall) : ShellEnvCache :=
  match s.inner.lookup call.workingDir with
  | some (.ready env) =>
    if s.now - env.capturedAt < s.ttl then s.setCall i call (.returned (some (.ok env))) else s.startCapture i call
  | some (.inFlight capture) => s.setCall i call (.waiting capture)
  | none => s.startCapture i call

/-- `wait_blocking`, or the loop on the receiver; `none` as long as the call sleeps. -/
def wake (blocking : Bool) (capture : Capture) : Option GetPhase :=
  if blocking then
    match capture.promise with
    | .pending => none
    | .done result => some (.returned (some result))
    | .cancelled => some .looking
  else
    match capture.value with
    | some result => some (.returned (some result))
    | none => if capture.sender then none else some .looking

def callStep (i : ℕ) (call : GetCall) : Option ShellEnvCache :=
  match call.phase with
  | .looking => some (s.look i call)
  | .waiting capture => (s.captures[capture]?.bind (wake call.blocking)).map (s.setCall i call)
  | .capturing capture =>
    s.captures[capture]?.bind fun capture =>
      match capture.phase with
      | .finished result => some (s.setCall i call (.returned result))
      | _ => none
  | .returned _ => none

def step : ShellEnvEvent → Option ShellEnvCache
  | .get workingDir blocking =>
    some { s with calls := s.calls ++ [{ workingDir, blocking, generation := s.generation workingDir }] }
  | .invalidate workingDir =>
    some { s with inner := s.inner.erase workingDir, invalidations := some workingDir :: s.invalidations }
  | .invalidateAll => some { s with inner := ∅, invalidations := none :: s.invalidations }
  | .elapse => some { s with now := s.now + 1 }
  | .call i => s.calls[i]?.bind (s.callStep i)
  | .cancel i =>
    s.calls[i]?.bind fun call =>
      match call.phase with
      | .waiting _ => if call.blocking then none else some (s.setCall i call (.returned none))
      | _ => none
  | .captured c outcome =>
    s.captures[c]?.bind fun capture =>
      (capture.finishCapture c s.now outcome).map fun next => { s with captures := s.captures.set c next }
  | .capture c =>
    s.captures[c]?.bind fun capture =>
      capture.next.map fun next =>
        { s with captures := s.captures.set c next, inner := capture.nextInner s.inner }
  | .abort c =>
    s.captures[c]?.bind fun capture => capture.abort.map fun next => { s with captures := s.captures.set c next }

end ShellEnvCache

/-! ## What the phase of a capture says -/

variable {phase : CapturePhase}

namespace CapturePhase

/-- The promise of a capture. -/
def promise : CapturePhase → InFlightState
  | .running | .captured _ | .stored _ | .unwinding | .evicted none => .pending
  | .published result | .sent result | .evicted (some result) | .released (some result) | .finished (some result) =>
    .done result
  | .released none | .finished none => .cancelled

/-- What was sent on its channel. -/
def value : CapturePhase → Option ShellEnvResult
  | .sent result => some result
  | .evicted result | .released result | .finished result => result
  | .running | .captured _ | .stored _ | .published _ | .unwinding => none

/-- Its sender has not been dropped. -/
def sender : CapturePhase → Bool
  | .finished _ => false
  | .running | .captured _ | .stored _ | .published _ | .sent _ | .unwinding | .evicted _ | .released _ => true

def result : CapturePhase → Option ShellEnvResult
  | .captured result | .published result | .sent result => some result
  | .stored env => some (.ok env)
  | .evicted result | .released result | .finished result => result
  | .running | .unwinding => none

/-- Its `InFlight` entry has not been replaced or removed. -/
def Holds : CapturePhase → Prop
  | .running | .captured _ | .published (.error _) | .sent (.error _) | .unwinding => True
  | .stored _ | .published (.ok _) | .sent (.ok _) | .evicted _ | .released _ | .finished _ => False

/-- The caller is about to put the snapshot into the map. -/
def Stores : CapturePhase → Prop
  | .captured (.ok _) => True
  | .running | .captured (.error _) | .stored _ | .published _ | .sent _ | .unwinding | .evicted _ | .released _
    | .finished _ => False

/-- The guard is about to remove the entry. -/
def Evicts : CapturePhase → Prop
  | .sent (.error _) | .unwinding => True
  | .running | .captured _ | .stored _ | .published _ | .sent (.ok _) | .evicted _ | .released _ | .finished _ => False

theorem Evicts.holds (h : phase.Evicts) : phase.Holds := by
  cases phase with
  | unwinding => exact trivial
  | sent result =>
    cases result with
    | ok env => exact absurd h id
    | error msg => exact trivial
  | _ => exact absurd h id

theorem result_of_promise {result : ShellEnvResult} (h : phase.promise = .done result) :
    phase.result = some result := by
  cases phase with
  | running | captured outcome | stored env | unwinding => cases h
  | published outcome | sent outcome =>
    cases h
    rfl
  | evicted outcome | released outcome | finished outcome =>
    cases outcome <;> cases h
    rfl

theorem promise_of_value {result : ShellEnvResult} (h : phase.value = some result) :
    phase.promise = .done result := by
  cases phase with
  | running | captured outcome | stored env | published outcome | unwinding => cases h
  | sent outcome | evicted outcome | released outcome | finished outcome =>
    cases h
    rfl

theorem result_of_cancelled (h : phase.promise = .cancelled) : phase.result = none := by
  cases phase with
  | running | captured outcome | stored env | unwinding | published outcome | sent outcome => cases h
  | evicted outcome => cases outcome <;> cases h
  | released outcome | finished outcome =>
    cases outcome <;> cases h
    rfl

/-- A channel is only closed without a value when the capture was cancelled. -/
theorem cancelled_of_closed (hsender : phase.sender = false) (hvalue : phase.value = none) :
    phase.promise = .cancelled := by
  cases phase with
  | finished outcome =>
    cases outcome <;> cases hvalue
    rfl
  | _ => cases hsender

end CapturePhase

/-- The promise and the channel are as the phase says, and the snapshot is that of the capture. -/
structure Capture.Agrees (capture : Capture) (id : ℕ) : Prop where
  promise : capture.promise = capture.phase.promise
  value : capture.value = capture.phase.value
  sender : capture.sender = capture.phase.sender
  result : ∀ env, capture.phase.result = some (.ok env) → env.capture = id

variable {inner : Table PathBuf CachedEntry}

namespace Capture

variable {capture capture' : Capture} {id now : ℕ}

theorem next_fields (h : capture.next = some capture') :
    capture'.workingDir = capture.workingDir ∧ capture'.generation = capture.generation := by
  rw [Capture.next] at h
  split at h <;> cases h <;> exact ⟨rfl, rfl⟩

theorem Agrees.next (hagrees : capture.Agrees id) (h : capture.next = some capture') : capture'.Agrees id := by
  obtain ⟨workingDir, generation, phase, promise, value, sender⟩ := capture
  obtain ⟨hpromise, hvalue, hsender, hresult⟩ := hagrees
  dsimp only at hpromise hvalue hsender hresult
  subst hpromise hvalue hsender
  cases phase with
  | running | finished result => cases h
  | captured result =>
    cases result with
    | ok | error =>
      cases h
      exact ⟨rfl, rfl, rfl, hresult⟩
  | stored env | published result | unwinding =>
    cases h
    exact ⟨rfl, rfl, rfl, hresult⟩
  | sent result =>
    cases result with
    | ok env =>
      cases h
      exact ⟨rfl, rfl, rfl, hresult⟩
    | error msg =>
      cases h
      exact ⟨rfl, rfl, rfl, hresult⟩
  | evicted result | released result =>
    cases result with
    | none | some =>
      cases h
      exact ⟨rfl, rfl, rfl, hresult⟩

theorem Agrees.finishCapture (hagrees : capture.Agrees id) {outcome : Except Text (List (Text × Text))}
    (h : capture.finishCapture id now outcome = some capture') : capture'.Agrees id := by
  obtain ⟨hpromise, hvalue, hsender, -⟩ := hagrees
  rw [Capture.finishCapture] at h
  split at h
  next hphase =>
    rw [hphase] at hpromise hvalue hsender
    cases h
    refine ⟨hpromise, hvalue, hsender, fun env henv => ?_⟩
    cases outcome <;> cases henv
    rfl
  next => cases h

theorem Agrees.abort (hagrees : capture.Agrees id) (h : capture.abort = some capture') : capture'.Agrees id := by
  obtain ⟨hpromise, hvalue, hsender, -⟩ := hagrees
  rw [Capture.abort] at h
  split at h
  next hphase =>
    rw [hphase] at hpromise hvalue hsender
    cases h
    exact ⟨hpromise, hvalue, hsender, fun env henv => by cases henv⟩
  next hphase =>
    rw [hphase] at hpromise hvalue hsender
    cases h
    exact ⟨hpromise, hvalue, hsender, fun env henv => by cases henv⟩
  next => cases h

theorem finishCapture_fields {outcome : Except Text (List (Text × Text))}
    (h : capture.finishCapture id now outcome = some capture') :
    capture'.workingDir = capture.workingDir ∧ capture'.generation = capture.generation ∧
      capture.phase.Holds ∧ capture'.phase.Holds := by
  rw [Capture.finishCapture] at h
  split at h
  next hphase =>
    cases h
    rw [hphase]
    exact ⟨rfl, rfl, trivial, trivial⟩
  next => cases h

theorem abort_fields (h : capture.abort = some capture') :
    capture'.workingDir = capture.workingDir ∧ capture'.generation = capture.generation ∧
      capture.phase.Holds ∧ capture'.phase.Holds := by
  rw [Capture.abort] at h
  split at h
  next hphase =>
    cases h
    rw [hphase]
    exact ⟨rfl, rfl, trivial, trivial⟩
  next hphase =>
    cases h
    rw [hphase]
    exact ⟨rfl, rfl, trivial, trivial⟩
  next => cases h

theorem nextInner_of_evicts (h : capture.phase.Evicts) :
    capture.nextInner inner = match inner.lookup capture.workingDir with
      | some (.inFlight _) => inner.erase capture.workingDir
      | some (.ready _) | none => inner := by
  rw [Capture.nextInner]
  cases hphase : capture.phase with
  | unwinding => rfl
  | sent result =>
    rw [hphase] at h
    cases result with
    | ok env => exact absurd h id
    | error msg => rfl
  | _ =>
    rw [hphase] at h
    exact absurd h id

/-- A step of the caller that captures puts the snapshot into the map, or has the guard look at the entry, or leaves the
map and its entry. -/
theorem next_cases (h : capture.next = some capture') :
    (∃ env, capture.phase = .captured (.ok env) ∧ ¬ capture'.phase.Holds) ∨
      (capture.phase.Evicts ∧ capture.phase.Holds ∧ ¬ capture'.phase.Holds) ∨
      (¬ capture.phase.Evicts ∧ (∀ inner, capture.nextInner inner = inner) ∧
        (capture'.phase.Holds ↔ capture.phase.Holds)) := by
  obtain ⟨workingDir, generation, phase, promise, value, sender⟩ := capture
  cases phase with
  | running | finished result => cases h
  | captured result =>
    cases result with
    | ok env =>
      cases h
      exact Or.inl ⟨env, rfl, id⟩
    | error msg =>
      cases h
      exact Or.inr (Or.inr ⟨id, fun _ => rfl, Iff.rfl⟩)
  | stored env | evicted result | released result =>
    cases h
    exact Or.inr (Or.inr ⟨id, fun _ => rfl, Iff.rfl⟩)
  | published result =>
    cases h
    refine Or.inr (Or.inr ⟨id, fun _ => rfl, ?_⟩)
    cases result <;> exact Iff.rfl
  | unwinding =>
    cases h
    exact Or.inr (Or.inl ⟨trivial, trivial, id⟩)
  | sent result =>
    cases result with
    | ok env =>
      cases h
      exact Or.inr (Or.inr ⟨id, fun _ => rfl, Iff.rfl⟩)
    | error msg =>
      cases h
      exact Or.inr (Or.inl ⟨trivial, trivial, id⟩)

end Capture

variable {workingDir : PathBuf}

namespace ShellEnvCache

variable (s : ShellEnvCache)

/-- A capture of the directory that started when it had been invalidated so often, or later. -/
def Serves (capture : ℕ) (workingDir : PathBuf) (generation : ℕ) : Prop :=
  ∃ started, s.captures[capture]? = some started ∧ started.workingDir = workingDir ∧ generation ≤ started.generation

/-- No capture of the directory is in flight. -/
def NoneInFlight (workingDir : PathBuf) : Prop :=
  match s.inner.lookup workingDir with
  | some (.inFlight _) => False
  | some (.ready _) | none => True

/-- The condition on a step: a capture whose directory has been invalidated since it started puts no snapshot into the
map, and its guard is not dropped while another capture of the directory is in flight. -/
def Timely : ShellEnvEvent → Prop
  | .capture c => ∀ capture ∈ s.captures[c]?,
      (capture.phase.Stores → capture.generation = s.generation capture.workingDir) ∧
        (capture.phase.Evicts → capture.generation = s.generation capture.workingDir ∨ s.NoneInFlight capture.workingDir)
  | .get .. | .invalidate _ | .invalidateAll | .elapse | .call _ | .cancel _ | .captured .. | .abort _ => True

/-- The map, the captures and the calls fit together. -/
structure Inv (s : ShellEnvCache) : Prop where
  agrees : ∀ (c : ℕ) (capture : Capture), s.captures[c]? = some capture → capture.Agrees c ∧
    capture.generation ≤ s.generation capture.workingDir
  calls : ∀ call ∈ s.calls, call.generation ≤ s.generation call.workingDir
  waiting : ∀ call ∈ s.calls, ∀ c, call.phase = .waiting c ∨ call.phase = .capturing c →
    s.Serves c call.workingDir call.generation
  returned : ∀ call ∈ s.calls, ∀ env, call.phase = .returned (some (.ok env)) →
    s.Serves env.capture call.workingDir call.generation
  ready : ∀ workingDir env, s.inner.lookup workingDir = some (.ready env) →
    s.Serves env.capture workingDir (s.generation workingDir)
  inFlight : ∀ workingDir c, s.inner.lookup workingDir = some (.inFlight c) →
    s.Serves c workingDir (s.generation workingDir) ∧ ∀ capture ∈ s.captures[c]?, capture.phase.Holds
  holds : ∀ (c : ℕ) (capture : Capture), s.captures[c]? = some capture → capture.phase.Holds →
    capture.generation = s.generation capture.workingDir → s.inner.lookup capture.workingDir = some (.inFlight c)
  unique : ∀ (c c' : ℕ) (capture capture' : Capture), s.captures[c]? = some capture → s.captures[c']? = some capture' →
    capture.phase.Holds → capture'.phase.Holds → capture.workingDir = capture'.workingDir →
    capture.generation = capture'.generation → c = c'

section

variable {s t : ShellEnvCache} {c i : ℕ} {capture capture' : Capture} {call : GetCall}

/-- Captures are never forgotten, and keep their directory and generation. -/
theorem Serves.setCapture {started : ℕ} {generation : ℕ}
    (h : s.Serves started workingDir generation) (hcapture : s.captures[c]? = some capture)
    (hdir : capture'.workingDir = capture.workingDir) (hgeneration : capture'.generation = capture.generation)
    (hcaptures : t.captures = s.captures.set c capture') : t.Serves started workingDir generation := by
  obtain ⟨old, hold, rfl, hle⟩ := h
  rw [Serves, hcaptures]
  by_cases hc : started = c
  · subst hc
    rw [hcapture, Option.some.injEq] at hold
    subst hold
    obtain ⟨hlt, -⟩ := List.getElem?_eq_some_iff.mp hcapture
    exact ⟨capture', List.getElem?_set_self hlt, hdir, hgeneration ▸ hle⟩
  · exact ⟨old, (List.getElem?_set_ne (Ne.symm hc)).trans hold, rfl, hle⟩

theorem Serves.append {started : ℕ} {generation : ℕ}
    (h : s.Serves started workingDir generation) (hcaptures : t.captures = s.captures ++ [capture]) :
    t.Serves started workingDir generation := by
  obtain ⟨old, hold, hrest⟩ := h
  rw [Serves, hcaptures]
  exact ⟨old, (List.getElem?_append_left (List.getElem?_eq_some_iff.mp hold).1).trans hold, hrest⟩

/-- A step of a capture, with what it does to the map. -/
theorem Inv.setCapture (h : s.Inv) (hcapture : s.captures[c]? = some capture)
    (hdir : capture'.workingDir = capture.workingDir) (hgeneration : capture'.generation = capture.generation)
    (hagrees : capture'.Agrees c) (hholds : capture'.phase.Holds → capture.phase.Holds)
    (hready : ∀ workingDir env, inner.lookup workingDir = some (.ready env) →
      s.Serves env.capture workingDir (s.generation workingDir))
    (hinFlight : ∀ workingDir started, inner.lookup workingDir = some (.inFlight started) →
      s.inner.lookup workingDir = some (.inFlight started) ∧ (started = c → capture'.phase.Holds))
    (hkeep : ∀ workingDir, s.inner.lookup workingDir = some (.inFlight c) → capture'.phase.Holds →
      inner.lookup workingDir = some (.inFlight c))
    (hothers : ∀ workingDir started, started ≠ c → s.inner.lookup workingDir = some (.inFlight started) →
      inner.lookup workingDir = some (.inFlight started)) :
    Inv { s with captures := s.captures.set c capture', inner } := by
  have hserves {started : ℕ} {workingDir : PathBuf} {generation : ℕ} (hold : s.Serves started workingDir generation) :
      Serves { s with captures := s.captures.set c capture', inner } started workingDir generation :=
    hold.setCapture hcapture hdir hgeneration rfl
  obtain ⟨hlt, -⟩ := List.getElem?_eq_some_iff.mp hcapture
  -- each capture was there, with the same directory and generation
  have hold {c' : ℕ} {new : Capture} (hnew : (s.captures.set c capture')[c']? = some new) :
      ∃ old, s.captures[c']? = some old ∧ new.workingDir = old.workingDir ∧ new.generation = old.generation ∧
        (new.phase.Holds → old.phase.Holds) ∧ new.Agrees c' ∧ (c' = c → new = capture') := by
    by_cases hc : c' = c
    · subst hc
      rw [List.getElem?_set_self hlt, Option.some.injEq] at hnew
      subst hnew
      exact ⟨capture, hcapture, hdir, hgeneration, hholds, hagrees, fun _ => rfl⟩
    · rw [List.getElem?_set_ne (Ne.symm hc)] at hnew
      exact ⟨new, hnew, rfl, rfl, id, (h.agrees c' new hnew).1, fun heq => absurd heq hc⟩
  refine ⟨fun c' new hnew => ?_, h.calls, fun call hcall c' hphase => hserves (h.waiting call hcall c' hphase),
    fun call hcall env hphase => hserves (h.returned call hcall env hphase),
    fun workingDir env henv => hserves (hready workingDir env henv), fun workingDir started hentry => ?_,
    fun c' new hnew hnewholds hcurrent => ?_, fun c₁ c₂ new₁ new₂ hnew₁ hnew₂ hholds₁ hholds₂ hdirs hgenerations => ?_⟩
  · obtain ⟨old, hold, hdir', hgeneration', -, hnewagrees, -⟩ := hold hnew
    refine ⟨hnewagrees, ?_⟩
    rw [hdir', hgeneration']
    exact (h.agrees c' old hold).2
  · obtain ⟨hentry', hself⟩ := hinFlight workingDir started hentry
    obtain ⟨hstarted, hphase⟩ := h.inFlight workingDir started hentry'
    refine ⟨hserves hstarted, fun new hnew => ?_⟩
    by_cases hc : started = c
    · obtain ⟨-, -, -, -, -, -, heq⟩ := hold hnew
      rw [heq hc]
      exact hself hc
    · exact hphase new ((List.getElem?_set_ne (Ne.symm hc)).symm.trans hnew)
  · obtain ⟨old, hold, hdir', hgeneration', hholds', -, heq⟩ := hold hnew
    rw [hdir', hgeneration'] at hcurrent
    have hentry := h.holds c' old hold (hholds' hnewholds) hcurrent
    rw [hdir']
    by_cases hc : c' = c
    · subst hc
      rw [heq rfl] at hnewholds
      exact hkeep old.workingDir hentry hnewholds
    · exact hothers old.workingDir c' hc hentry
  · obtain ⟨old₁, hold₁, hdir₁, hgeneration₁, hholds₁', -, -⟩ := hold hnew₁
    obtain ⟨old₂, hold₂, hdir₂, hgeneration₂, hholds₂', -, -⟩ := hold hnew₂
    exact h.unique c₁ c₂ old₁ old₂ hold₁ hold₂ (hholds₁' hholds₁) (hholds₂' hholds₂)
      (hdir₁.symm.trans (hdirs.trans hdir₂)) (hgeneration₁.symm.trans (hgenerations.trans hgeneration₂))

/-- A capture goes on and leaves the map. -/
theorem Inv.setCapture_same (h : s.Inv) (hcapture : s.captures[c]? = some capture)
    (hdir : capture'.workingDir = capture.workingDir) (hgeneration : capture'.generation = capture.generation)
    (hagrees : capture'.Agrees c) (hholds : capture'.phase.Holds ↔ capture.phase.Holds) :
    Inv { s with captures := s.captures.set c capture' } := by
  refine h.setCapture hcapture hdir hgeneration hagrees hholds.mp h.ready (fun workingDir started hentry => ⟨hentry, ?_⟩)
    (fun _ hentry _ => hentry) (fun _ _ _ hentry => hentry)
  rintro rfl
  exact hholds.mpr ((h.inFlight workingDir started hentry).2 capture hcapture)

/-- An entry is kept under the directory of its capture. -/
theorem Inv.dir_of_entry (h : s.Inv) (hcapture : s.captures[c]? = some capture)
    (hentry : s.inner.lookup workingDir = some (.inFlight c)) : workingDir = capture.workingDir := by
  obtain ⟨⟨old, hold, rfl, -⟩, -⟩ := h.inFlight workingDir c hentry
  rw [hcapture, Option.some.injEq] at hold
  rw [hold]

/-- The snapshot of a capture that is current replaces its own entry. -/
theorem Inv.store (h : s.Inv) (hcapture : s.captures[c]? = some capture) {env : ShellEnv}
    (hphase : capture.phase = .captured (.ok env)) (hcurrent : capture.generation = s.generation capture.workingDir)
    (hdir : capture'.workingDir = capture.workingDir) (hgeneration : capture'.generation = capture.generation)
    (hagrees : capture'.Agrees c) (hholds : ¬ capture'.phase.Holds) :
    Inv { s with captures := s.captures.set c capture', inner := s.inner.insert capture.workingDir (.ready env) } := by
  have hown : env.capture = c := (h.agrees c capture hcapture).1.result env (by rw [hphase]; rfl)
  have hentry : s.inner.lookup capture.workingDir = some (.inFlight c) :=
    h.holds c capture hcapture (by rw [hphase]; exact trivial) hcurrent
  have hother {workingDir : PathBuf} {started : ℕ} (hstarted : s.inner.lookup workingDir = some (.inFlight started))
      (hne : workingDir ≠ capture.workingDir) : started ≠ c := by
    rintro rfl
    exact hne (h.dir_of_entry hcapture hstarted)
  refine h.setCapture hcapture hdir hgeneration hagrees (fun hnew => absurd hnew hholds) (fun workingDir env' hready => ?_)
    (fun workingDir started hinFlight => ?_) (fun _ _ hnew => absurd hnew hholds) (fun workingDir started hne hold => ?_)
  · by_cases hw : workingDir = capture.workingDir
    · subst hw
      rw [AList.lookup_insert, Option.some.injEq, CachedEntry.ready.injEq] at hready
      subst hready
      exact ⟨capture, hown ▸ hcapture, rfl, Nat.le_of_eq hcurrent.symm⟩
    · rw [AList.lookup_insert_ne hw] at hready
      exact h.ready workingDir env' hready
  · by_cases hw : workingDir = capture.workingDir
    · subst hw
      rw [AList.lookup_insert] at hinFlight
      cases hinFlight
    · rw [AList.lookup_insert_ne hw] at hinFlight
      exact ⟨hinFlight, fun heq => absurd heq (hother hinFlight hw)⟩
  · have hw : workingDir ≠ capture.workingDir := by
      rintro rfl
      rw [hentry] at hold
      cases hold
      exact hne rfl
    rw [AList.lookup_insert_ne hw]
    exact hold

/-- The entry that the guard of a timely step finds is that of its capture. -/
theorem Inv.own_entry (h : s.Inv) (hcapture : s.captures[c]? = some capture) (hevicts : capture.phase.Evicts)
    (htimely : capture.generation = s.generation capture.workingDir ∨ s.NoneInFlight capture.workingDir) :
    ∀ c', s.inner.lookup capture.workingDir = some (.inFlight c') → c' = c := by
  intro c' hentry
  rcases htimely with hcurrent | hnone
  · rw [h.holds c capture hcapture hevicts.holds hcurrent] at hentry
    cases hentry
    rfl
  · rw [NoneInFlight, hentry] at hnone
    exact absurd hnone id

/-- The guard removes the entry of its capture. -/
theorem Inv.evict (h : s.Inv) (hcapture : s.captures[c]? = some capture) (hevicts : capture.phase.Evicts)
    (hown : ∀ c', s.inner.lookup capture.workingDir = some (.inFlight c') → c' = c)
    (hdir : capture'.workingDir = capture.workingDir) (hgeneration : capture'.generation = capture.generation)
    (hagrees : capture'.Agrees c) (hholds : ¬ capture'.phase.Holds) :
    Inv { s with captures := s.captures.set c capture', inner := capture.nextInner s.inner } := by
  have hother {workingDir : PathBuf} {started : ℕ} (hstarted : s.inner.lookup workingDir = some (.inFlight started))
      (hne : workingDir ≠ capture.workingDir) : started ≠ c := by
    rintro rfl
    exact hne (h.dir_of_entry hcapture hstarted)
  rw [Capture.nextInner_of_evicts hevicts]
  split
  -- the entry is the own one, so erasing it takes nobody else's
  next started hstarted =>
    obtain rfl := hown started hstarted
    refine h.setCapture hcapture hdir hgeneration hagrees (fun hnew => absurd hnew hholds) (fun workingDir env hready => ?_)
      (fun workingDir other hinFlight => ?_) (fun _ _ hnew => absurd hnew hholds) (fun workingDir other hne hold => ?_)
    · by_cases hw : workingDir = capture.workingDir
      · subst hw
        rw [AList.lookup_erase] at hready
        cases hready
      · rw [AList.lookup_erase_ne hw] at hready
        exact h.ready workingDir env hready
    · by_cases hw : workingDir = capture.workingDir
      · subst hw
        rw [AList.lookup_erase] at hinFlight
        cases hinFlight
      · rw [AList.lookup_erase_ne hw] at hinFlight
        exact ⟨hinFlight, fun heq => absurd heq (hother hinFlight hw)⟩
    · have hw : workingDir ≠ capture.workingDir := by
        rintro rfl
        exact hne (hown other hold)
      rw [AList.lookup_erase_ne hw]
      exact hold
  all_goals
    rename_i hnone
    refine h.setCapture hcapture hdir hgeneration hagrees (fun hnew => absurd hnew hholds) h.ready
      (fun workingDir other hinFlight => ⟨hinFlight, fun heq => absurd heq (hother hinFlight ?_)⟩)
      (fun _ _ hnew => absurd hnew hholds) (fun _ _ _ hold => hold)
    rintro rfl
    rw [hnone] at hinFlight
    cases hinFlight

/-! ## The calls -/

/-- A call that waits returns the result of the capture, or retries after a cancelled one. -/
theorem wake_cases (hagrees : capture.Agrees c) {blocking : Bool} {phase : GetPhase}
    (h : wake blocking capture = some phase) :
    (∃ result, capture.promise = .done result ∧ capture.phase.result = some result ∧ phase = .returned (some result)) ∨
      (capture.promise = .cancelled ∧ capture.phase.result = none ∧ phase = .looking) := by
  obtain ⟨hpromise, hvalue, hsender, -⟩ := hagrees
  have hdone {result : ShellEnvResult} (hresult : capture.promise = .done result) :
      capture.phase.result = some result := CapturePhase.result_of_promise (hpromise ▸ hresult)
  have hcancelled (hresult : capture.promise = .cancelled) : capture.phase.result = none :=
    CapturePhase.result_of_cancelled (hpromise ▸ hresult)
  rw [wake] at h
  split at h
  next =>
    split at h
    next => cases h
    next result hresult =>
      cases h
      exact Or.inl ⟨result, hresult, hdone hresult, rfl⟩
    next hresult =>
      cases h
      exact Or.inr ⟨hresult, hcancelled hresult, rfl⟩
  next =>
    split at h
    next result hresult =>
      cases h
      have hpromise' := hpromise.trans (CapturePhase.promise_of_value (hvalue ▸ hresult))
      exact Or.inl ⟨result, hpromise', hdone hpromise', rfl⟩
    next hnone =>
      split at h
      next => cases h
      next hclosed =>
        cases h
        have hpromise' := hpromise.trans (CapturePhase.cancelled_of_closed (hsender ▸ (Bool.not_eq_true _).mp hclosed)
          (hvalue ▸ hnone))
        exact Or.inr ⟨hpromise', hcancelled hpromise', rfl⟩

/-- A call does not sleep once the capture has ended. -/
theorem wake_finished (hagrees : capture.Agrees c) {result : Option ShellEnvResult}
    (hfinished : capture.phase = .finished result) (blocking : Bool) : (wake blocking capture).isSome := by
  obtain ⟨hpromise, hvalue, hsender, -⟩ := hagrees
  rw [hfinished] at hpromise hvalue hsender
  rw [wake]
  cases result with
  | none =>
    rw [hpromise, hvalue, hsender]
    cases blocking <;> rfl
  | some result =>
    rw [hpromise, hvalue]
    cases blocking <;> rfl

theorem Inv.setCall (h : s.Inv) (hcall : s.calls[i]? = some call) {phase : GetPhase}
    (hwaiting : ∀ c, phase = .waiting c ∨ phase = .capturing c → s.Serves c call.workingDir call.generation)
    (hreturned : ∀ env, phase = .returned (some (.ok env)) → s.Serves env.capture call.workingDir call.generation) :
    (s.setCall i call phase).Inv := by
  have hcalls {other : GetCall} (hother : other ∈ s.calls.set i { call with phase }) :
      other ∈ s.calls ∨ other = { call with phase } := List.mem_or_eq_of_mem_set hother
  refine ⟨h.agrees, fun other hother => ?_, fun other hother c hphase => ?_, fun other hother env hphase => ?_, h.ready,
    h.inFlight, h.holds, h.unique⟩
  · rcases hcalls hother with hother | rfl
    · exact h.calls other hother
    · exact h.calls call (List.mem_of_getElem? hcall)
  · rcases hcalls hother with hother | rfl
    · exact h.waiting other hother c hphase
    · exact hwaiting c hphase
  · rcases hcalls hother with hother | rfl
    · exact h.returned other hother env hphase
    · exact hreturned env hphase

/-- A capture starts, where the map has no entry of another one. -/
theorem Inv.startCapture (h : s.Inv) (hcall : s.calls[i]? = some call)
    (hentry : ∀ c, s.inner.lookup call.workingDir ≠ some (.inFlight c)) : (s.startCapture i call).Inv := by
  have hle : call.generation ≤ s.generation call.workingDir := h.calls call (List.mem_of_getElem? hcall)
  -- first the capture with its entry
  have hmid : Inv { s with
      inner := s.inner.insert call.workingDir (.inFlight s.captures.length)
      captures := s.captures ++ [{ workingDir := call.workingDir, generation := s.generation call.workingDir }] } := by
    have hserves {started : ℕ} {workingDir : PathBuf} {generation : ℕ} (hold : s.Serves started workingDir generation) :=
      hold.append (t := { s with
        inner := s.inner.insert call.workingDir (.inFlight s.captures.length)
        captures := s.captures ++ [{ workingDir := call.workingDir, generation := s.generation call.workingDir }] }) rfl
    -- a capture of the directory that holds its entry is of an older generation
    have hstale {c : ℕ} {old : Capture} (hold : s.captures[c]? = some old) (hholds : old.phase.Holds)
        (hdir : old.workingDir = call.workingDir) : old.generation ≠ s.generation call.workingDir := fun heq =>
      hentry c (hdir ▸ h.holds c old hold hholds (hdir.symm ▸ heq))
    refine ⟨fun c new hnew => ?_, h.calls, fun other hother c hphase => hserves (h.waiting other hother c hphase),
      fun other hother env hphase => hserves (h.returned other hother env hphase), fun workingDir env hready => ?_,
      fun workingDir c hinFlight => ?_, fun c new hnew hholds hcurrent => ?_,
      fun c₁ c₂ new₁ new₂ hnew₁ hnew₂ hholds₁ hholds₂ hdirs hgenerations => ?_⟩
    · rcases of_getElem?_concat hnew with hold | ⟨-, rfl⟩
      · exact h.agrees c new hold
      · exact ⟨⟨rfl, rfl, rfl, fun env henv => by cases henv⟩, le_rfl⟩
    · by_cases hw : workingDir = call.workingDir
      · subst hw
        rw [AList.lookup_insert] at hready
        cases hready
      · rw [AList.lookup_insert_ne hw] at hready
        exact hserves (h.ready workingDir env hready)
    · by_cases hw : workingDir = call.workingDir
      · subst hw
        rw [AList.lookup_insert] at hinFlight
        cases hinFlight
        refine ⟨⟨_, List.getElem?_concat_length, rfl, le_rfl⟩, fun new hnew => ?_⟩
        rw [List.getElem?_concat_length, Option.mem_some_iff] at hnew
        rw [← hnew]
        exact trivial
      · rw [AList.lookup_insert_ne hw] at hinFlight
        obtain ⟨hstarted, hphase⟩ := h.inFlight workingDir c hinFlight
        refine ⟨hserves hstarted, fun new hnew => ?_⟩
        rcases of_getElem?_concat hnew with hold | ⟨-, rfl⟩
        · exact hphase new hold
        · exact trivial
    · rcases of_getElem?_concat hnew with hold | ⟨rfl, rfl⟩
      · have hw : new.workingDir ≠ call.workingDir := fun hdir => hstale hold hholds hdir (hdir ▸ hcurrent)
        exact (AList.lookup_insert_ne hw).trans (h.holds c new hold hholds hcurrent)
      · exact AList.lookup_insert _
    · rcases of_getElem?_concat hnew₁ with hold₁ | ⟨rfl, rfl⟩ <;> rcases of_getElem?_concat hnew₂ with hold₂ | ⟨rfl, rfl⟩
      · exact h.unique c₁ c₂ new₁ new₂ hold₁ hold₂ hholds₁ hholds₂ hdirs hgenerations
      · exact absurd hgenerations (hstale hold₁ hholds₁ hdirs)
      · exact absurd hgenerations.symm (hstale hold₂ hholds₂ hdirs.symm)
      · rfl
  refine hmid.setCall hcall (fun c hphase => ?_) fun env hphase => by cases hphase
  rcases hphase with hphase | hphase <;> cases hphase
  exact ⟨_, List.getElem?_concat_length, rfl, hle⟩

theorem Inv.look (h : s.Inv) (hcall : s.calls[i]? = some call) : (s.look i call).Inv := by
  have hmem : call ∈ s.calls := List.mem_of_getElem? hcall
  have hle : call.generation ≤ s.generation call.workingDir := h.calls call hmem
  have hserves {c : ℕ} (hcurrent : s.Serves c call.workingDir (s.generation call.workingDir)) :
      s.Serves c call.workingDir call.generation := by
    obtain ⟨started, hstarted, hdir, hgeneration⟩ := hcurrent
    exact ⟨started, hstarted, hdir, Nat.le_trans hle hgeneration⟩
  rw [ShellEnvCache.look]
  split
  next env hentry =>
    split
    next =>
      refine h.setCall hcall (fun c hphase => ?_) fun env' hphase => ?_
      · rcases hphase with hphase | hphase <;> cases hphase
      · cases hphase
        exact hserves (h.ready _ env hentry)
    next =>
      refine h.startCapture hcall fun c hinFlight => ?_
      rw [hentry] at hinFlight
      cases hinFlight
  next c hentry =>
    refine h.setCall hcall (fun c' hphase => ?_) fun env hphase => by cases hphase
    rcases hphase with hphase | hphase <;> cases hphase
    exact hserves (h.inFlight _ c hentry).1
  next hentry =>
    refine h.startCapture hcall fun c hinFlight => ?_
    rw [hentry] at hinFlight
    cases hinFlight

theorem Inv.callStep (h : s.Inv) (hcall : s.calls[i]? = some call) (hstep : s.callStep i call = some t) : t.Inv := by
  have hmem : call ∈ s.calls := List.mem_of_getElem? hcall
  -- the snapshot of the capture that the call has waited for
  have hown {c : ℕ} {capture : Capture} (hcapture : s.captures[c]? = some capture)
      (hserves : s.Serves c call.workingDir call.generation) {env : ShellEnv}
      (hresult : capture.phase.result = some (.ok env)) : s.Serves env.capture call.workingDir call.generation := by
    rw [(h.agrees c capture hcapture).1.result env hresult]
    exact hserves
  rw [ShellEnvCache.callStep] at hstep
  split at hstep
  next =>
    cases hstep
    exact h.look hcall
  next c hphase =>
    have hserves := h.waiting call hmem c (Or.inl hphase)
    obtain ⟨phase, hbind, rfl⟩ := Option.map_eq_some_iff.mp hstep
    obtain ⟨capture, hcapture, hwake⟩ := Option.bind_eq_some_iff.mp hbind
    rcases wake_cases (h.agrees c capture hcapture).1 hwake with ⟨result, -, hresult, rfl⟩ | ⟨-, -, rfl⟩
    · refine h.setCall hcall (fun c' hphase' => ?_) fun env henv => ?_
      · rcases hphase' with hphase' | hphase' <;> cases hphase'
      · cases henv
        exact hown hcapture hserves hresult
    · refine h.setCall hcall (fun c' hphase' => ?_) fun env henv => by cases henv
      rcases hphase' with hphase' | hphase' <;> cases hphase'
  next c hphase =>
    have hserves := h.waiting call hmem c (Or.inr hphase)
    obtain ⟨capture, hcapture, hfinished⟩ := Option.bind_eq_some_iff.mp hstep
    split at hfinished
    next result hresult =>
      cases hfinished
      refine h.setCall hcall (fun c' hphase' => ?_) fun env henv => ?_
      · rcases hphase' with hphase' | hphase' <;> cases hphase'
      · cases henv
        exact hown hcapture hserves (by rw [hresult]; rfl)
    next => cases hfinished
  next => cases hstep

/-! ## Invalidation -/

theorem generation_cons (dir : Option PathBuf) (workingDir : PathBuf) :
    generation { s with invalidations := dir :: s.invalidations } workingDir =
      s.generation workingDir + if dir.all (· = workingDir) then 1 else 0 := by
  rw [generation, List.countP_cons]
  rfl

/-- An invalidation, of one directory or of all. -/
theorem Inv.invalidate (h : s.Inv) (dir : Option PathBuf)
    (hinner : ∀ workingDir, inner.lookup workingDir = if dir.all (· = workingDir) then none else s.inner.lookup workingDir) :
    Inv { s with inner, invalidations := dir :: s.invalidations } := by
  have hgeneration (workingDir : PathBuf) :
      s.generation workingDir ≤ generation { s with inner, invalidations := dir :: s.invalidations } workingDir :=
    Nat.le_trans (Nat.le_add_right _ _) (Nat.le_of_eq (generation_cons dir workingDir).symm)
  -- an entry that is left is of a directory that was not invalidated
  have hleft {workingDir : PathBuf} {entry : CachedEntry} (hentry : inner.lookup workingDir = some entry) :
      s.inner.lookup workingDir = some entry ∧
        generation { s with inner, invalidations := dir :: s.invalidations } workingDir = s.generation workingDir := by
    rw [hinner] at hentry
    split at hentry
    next => cases hentry
    next hdir => exact ⟨hentry, (generation_cons dir workingDir).trans (by rw [if_neg hdir, Nat.add_zero])⟩
  refine ⟨fun c capture hcapture => ⟨(h.agrees c capture hcapture).1, Nat.le_trans (h.agrees c capture hcapture).2 (hgeneration _)⟩,
    fun call hcall => Nat.le_trans (h.calls call hcall) (hgeneration _), h.waiting, h.returned, fun workingDir env hentry => ?_,
    fun workingDir c hentry => ?_, fun c capture hcapture hholds hcurrent => ?_, h.unique⟩
  · obtain ⟨hold, hsame⟩ := hleft hentry
    rw [hsame]
    exact h.ready workingDir env hold
  · obtain ⟨hold, hsame⟩ := hleft hentry
    rw [hsame]
    exact h.inFlight workingDir c hold
  · have hgenerations := (generation_cons (s := s) dir capture.workingDir).symm.trans hcurrent.symm
    show inner.lookup _ = _
    rw [hinner]
    split
    next hdir =>
      rw [if_pos hdir] at hgenerations
      have := (h.agrees c capture hcapture).2
      omega
    next hdir =>
      rw [if_neg hdir, Nat.add_zero] at hgenerations
      exact h.holds c capture hcapture hholds hgenerations.symm

/-- Every timely step keeps the invariant. -/
theorem Inv.step {event : ShellEnvEvent} (h : s.Inv) (htimely : s.Timely event) (hstep : s.step event = some t) : t.Inv := by
  cases event with
  | get workingDir blocking =>
    cases hstep
    refine ⟨h.agrees, fun call hcall => ?_, fun call hcall c hphase => ?_, fun call hcall env hphase => ?_, h.ready,
      h.inFlight, h.holds, h.unique⟩
    all_goals rcases List.mem_append.mp hcall with hcall | hcall
    · exact h.calls call hcall
    · rw [List.mem_singleton.mp hcall]
      exact le_rfl
    · exact h.waiting call hcall c hphase
    · rw [List.mem_singleton.mp hcall] at hphase
      rcases hphase with hphase | hphase <;> cases hphase
    · exact h.returned call hcall env hphase
    · rw [List.mem_singleton.mp hcall] at hphase
      cases hphase
  | invalidate dir =>
    cases hstep
    refine h.invalidate (some dir) fun workingDir => ?_
    by_cases hdir : workingDir = dir
    · subst hdir
      rw [AList.lookup_erase, if_pos (by simp)]
    · rw [AList.lookup_erase_ne hdir, if_neg (by simpa using Ne.symm hdir)]
  | invalidateAll =>
    cases hstep
    exact h.invalidate none fun workingDir => rfl
  | elapse =>
    cases hstep
    exact ⟨h.agrees, h.calls, h.waiting, h.returned, h.ready, h.inFlight, h.holds, h.unique⟩
  | call i =>
    obtain ⟨call, hcall, hnext⟩ := Option.bind_eq_some_iff.mp hstep
    exact h.callStep hcall hnext
  | cancel i =>
    obtain ⟨call, hcall, hnext⟩ := Option.bind_eq_some_iff.mp hstep
    split at hnext
    next =>
      split at hnext
      next => cases hnext
      next =>
        cases hnext
        refine h.setCall hcall (fun c hphase => ?_) fun env henv => by cases henv
        rcases hphase with hphase | hphase <;> cases hphase
    next => cases hnext
  | captured c outcome =>
    obtain ⟨capture, hcapture, hmap⟩ := Option.bind_eq_some_iff.mp hstep
    obtain ⟨capture', hnext, rfl⟩ := Option.map_eq_some_iff.mp hmap
    obtain ⟨hdir, hgeneration, hholds, hholds'⟩ := Capture.finishCapture_fields hnext
    exact h.setCapture_same hcapture hdir hgeneration ((h.agrees c capture hcapture).1.finishCapture hnext)
      (iff_of_true hholds' hholds)
  | abort c =>
    obtain ⟨capture, hcapture, hmap⟩ := Option.bind_eq_some_iff.mp hstep
    obtain ⟨capture', hnext, rfl⟩ := Option.map_eq_some_iff.mp hmap
    obtain ⟨hdir, hgeneration, hholds, hholds'⟩ := Capture.abort_fields hnext
    exact h.setCapture_same hcapture hdir hgeneration ((h.agrees c capture hcapture).1.abort hnext)
      (iff_of_true hholds' hholds)
  | capture c =>
    obtain ⟨capture, hcapture, hmap⟩ := Option.bind_eq_some_iff.mp hstep
    obtain ⟨capture', hnext, rfl⟩ := Option.map_eq_some_iff.mp hmap
    obtain ⟨hdir, hgeneration⟩ := Capture.next_fields hnext
    have hagrees := (h.agrees c capture hcapture).1.next hnext
    obtain ⟨hstores, hevicts⟩ := htimely capture hcapture
    -- the capture stores its result, or gives up its entry, or leaves the map alone
    rcases Capture.next_cases hnext with ⟨env, hphase, hholds⟩ | ⟨hevict, -, hholds⟩ | ⟨-, hinner, hholds⟩
    · have hinner : capture.nextInner s.inner = s.inner.insert capture.workingDir (.ready env) := by
        rw [Capture.nextInner, hphase]
      rw [hinner]
      exact h.store hcapture hphase (hstores (by rw [hphase]; exact trivial)) hdir hgeneration hagrees hholds
    · exact h.evict hcapture hevict (h.own_entry hcapture hevict (hevicts hevict)) hdir hgeneration hagrees hholds
    · rw [hinner]
      exact h.setCapture_same hcapture hdir hgeneration hagrees hholds

theorem inv_new (ttl : ℕ) : Inv { ttl } := by
  refine ⟨fun c capture hcapture => ?_, fun call hcall => absurd hcall List.not_mem_nil,
    fun call hcall => absurd hcall List.not_mem_nil, fun call hcall => absurd hcall List.not_mem_nil,
    fun workingDir env hentry => ?_, fun workingDir c hentry => ?_, fun c capture hcapture => ?_,
    fun c c' capture capture' hcapture => ?_⟩
  · cases hcapture
  · cases hentry
  · cases hentry
  · cases hcapture
  · cases hcapture

end

/-! ## Without invalidations -/

end ShellEnvCache

def ShellEnvEvent.Invalidates : ShellEnvEvent → Prop
  | .invalidate _ | .invalidateAll => True
  | .get .. | .elapse | .call _ | .cancel _ | .captured .. | .capture _ | .abort _ => False

instance : (event : ShellEnvEvent) → Decidable event.Invalidates
  | .invalidate _ | .invalidateAll => .isTrue trivial
  | .get .. | .elapse | .call _ | .cancel _ | .captured .. | .capture _ | .abort _ => .isFalse id

namespace ShellEnvCache

/-- Captures are coalesced, and nobody waits forever. -/
structure Coalesced (s : ShellEnvCache) : Prop where
  /-- At most one capture of a directory runs. -/
  one : ∀ (c c' : ℕ) (capture capture' : Capture), s.captures[c]? = some capture → s.captures[c']? = some capture' →
    capture.phase = .running → capture'.phase = .running → capture.workingDir = capture'.workingDir → c = c'
  /-- A capture that has ended has left its promise and its channel. -/
  ended : ∀ (c : ℕ) (capture : Capture) (result : Option ShellEnvResult), s.captures[c]? = some capture →
    capture.phase = .finished result → capture.promise ≠ .pending ∧ (capture.value.isSome ∨ capture.sender = false)
  /-- A call that waits for a capture can go on when that has ended, and returns its result or retries if it was
  cancelled. -/
  woken : ∀ (i : ℕ) (call : GetCall) (c : ℕ), s.calls[i]? = some call → call.phase = .waiting c →
    ∃ capture, s.captures[c]? = some capture ∧
      (∀ result, capture.phase = .finished result → (s.step (.call i)).isSome) ∧
      ∀ t, s.step (.call i) = some t →
        (∃ result, capture.phase.result = some result ∧ capture.promise = .done result ∧
          t = s.setCall i call (.returned (some result))) ∨
        (capture.phase.result = none ∧ capture.promise = .cancelled ∧ t = s.setCall i call .looking)
  /-- An `InFlight` entry is that of a capture whose caller is to replace or remove it. -/
  held : ∀ (workingDir : PathBuf) (c : ℕ), s.inner.lookup workingDir = some (.inFlight c) →
    ∃ capture, s.captures[c]? = some capture ∧ capture.workingDir = workingDir ∧ capture.phase.Holds

section

variable {s t : ShellEnvCache}

/-- Without invalidations every step is timely. -/
theorem Inv.timely (h : s.Inv) (hnone : s.invalidations = []) (event : ShellEnvEvent) : s.Timely event := by
  have hzero (workingDir : PathBuf) : s.generation workingDir = 0 := by
    rw [generation, hnone]
    rfl
  cases event with
  | capture c =>
    intro capture hcapture
    have hcurrent : capture.generation = s.generation capture.workingDir := by
      have hle := (h.agrees c capture hcapture).2
      rw [hzero] at hle ⊢
      omega
    exact ⟨fun _ => hcurrent, fun _ => Or.inl hcurrent⟩
  | _ => exact trivial

theorem look_invalidations (i : ℕ) (call : GetCall) : (s.look i call).invalidations = s.invalidations := by
  rw [look]
  split
  next => split <;> rfl
  next => rfl
  next => rfl

theorem callStep_invalidations {i : ℕ} {call : GetCall} (hstep : s.callStep i call = some t) :
    t.invalidations = s.invalidations := by
  rw [callStep] at hstep
  split at hstep
  next =>
    cases hstep
    exact look_invalidations i call
  next =>
    obtain ⟨phase, -, rfl⟩ := Option.map_eq_some_iff.mp hstep
    rfl
  next =>
    obtain ⟨capture, -, hfinished⟩ := Option.bind_eq_some_iff.mp hstep
    split at hfinished <;> cases hfinished
    rfl
  next => cases hstep

theorem invalidations_step {event : ShellEnvEvent} (hevent : ¬ event.Invalidates) (hstep : s.step event = some t) :
    t.invalidations = s.invalidations := by
  cases event with
  | invalidate dir | invalidateAll => exact absurd trivial hevent
  | get workingDir blocking | elapse =>
    cases hstep
    rfl
  | call i =>
    obtain ⟨call, -, hnext⟩ := Option.bind_eq_some_iff.mp hstep
    exact callStep_invalidations hnext
  | cancel i =>
    obtain ⟨call, -, hnext⟩ := Option.bind_eq_some_iff.mp hstep
    split at hnext
    next =>
      split at hnext <;> cases hnext
      rfl
    next => cases hnext
  | captured c outcome | capture c | abort c =>
    obtain ⟨capture, -, hmap⟩ := Option.bind_eq_some_iff.mp hstep
    obtain ⟨capture', -, rfl⟩ := Option.map_eq_some_iff.mp hmap
    rfl

theorem Inv.woken (h : s.Inv) {i c : ℕ} {call : GetCall} (hcall : s.calls[i]? = some call)
    (hphase : call.phase = .waiting c) :
    ∃ capture, s.captures[c]? = some capture ∧
      (∀ result, capture.phase = .finished result → (s.step (.call i)).isSome) ∧
      ∀ t, s.step (.call i) = some t →
        (∃ result, capture.phase.result = some result ∧ capture.promise = .done result ∧
          t = s.setCall i call (.returned (some result))) ∨
        (capture.phase.result = none ∧ capture.promise = .cancelled ∧ t = s.setCall i call .looking) := by
  obtain ⟨capture, hcapture, -⟩ := h.waiting call (List.mem_of_getElem? hcall) c (Or.inl hphase)
  have hagrees := (h.agrees c capture hcapture).1
  have hstep : s.step (.call i) = (wake call.blocking capture).map (s.setCall i call) := by
    rw [ShellEnvCache.step, hcall, Option.bind_some, ShellEnvCache.callStep, hphase]
    dsimp only
    rw [hcapture, Option.bind_some]
  refine ⟨capture, hcapture, fun result hfinished => ?_, fun t ht => ?_⟩
  · rw [hstep, Option.isSome_map]
    exact wake_finished hagrees hfinished _
  · rw [hstep] at ht
    obtain ⟨phase, hwake, rfl⟩ := Option.map_eq_some_iff.mp ht
    rcases wake_cases hagrees hwake with ⟨result, hpromise, hresult, rfl⟩ | ⟨hpromise, hresult, rfl⟩
    · exact Or.inl ⟨result, hresult, hpromise, rfl⟩
    · exact Or.inr ⟨hresult, hpromise, rfl⟩

theorem Inv.coalesced (h : s.Inv) (hnone : s.invalidations = []) : s.Coalesced := by
  have hrunning {capture : Capture} (hphase : capture.phase = .running) : capture.phase.Holds := by
    rw [hphase]
    exact trivial
  have hgeneration {c : ℕ} {capture : Capture} (hcapture : s.captures[c]? = some capture) : capture.generation = 0 := by
    have hle := (h.agrees c capture hcapture).2
    rw [generation, hnone] at hle
    exact Nat.le_zero.mp hle
  refine ⟨fun c c' capture capture' hcapture hcapture' hphase hphase' hdir => ?_,
    fun c capture result hcapture hphase => ?_, fun i call c hcall hphase => h.woken hcall hphase,
    fun workingDir c hentry => ?_⟩
  · exact h.unique c c' capture capture' hcapture hcapture' (hrunning hphase) (hrunning hphase') hdir
      ((hgeneration hcapture).trans (hgeneration hcapture').symm)
  · obtain ⟨hpromise, -, hsender, -⟩ := (h.agrees c capture hcapture).1
    rw [hphase] at hpromise hsender
    refine ⟨fun hpending => ?_, Or.inr hsender⟩
    rw [hpromise] at hpending
    cases result <;> cases hpending
  · obtain ⟨⟨capture, hcapture, hdir, -⟩, hholds⟩ := h.inFlight workingDir c hentry
    exact ⟨capture, hcapture, hdir, hholds capture hcapture⟩

/-- In every run without invalidations, captures are coalesced and nobody waits forever. -/
theorem run_coalesced {ttl : ℕ} {events : List ShellEnvEvent} (hevents : ∀ event ∈ events, ¬ event.Invalidates)
    (hrun : run step { ttl } events = some s) : s.Coalesced := by
  have hstep (s : ShellEnvCache) (event : ShellEnvEvent) (t : ShellEnvCache) (hs : s.Inv ∧ s.invalidations = [])
      (hevent : ¬ event.Invalidates) (hstep : s.step event = some t) : t.Inv ∧ t.invalidations = [] :=
    ⟨hs.1.step (hs.1.timely hs.2 event) hstep, (invalidations_step hevent hstep).trans hs.2⟩
  have hinv := run_invariant_along hstep ⟨inv_new ttl, rfl⟩ (Along.of_forall hevents) hrun
  exact hinv.1.coalesced hinv.2

/-- Two calls, the second of which waits until the first one is cancelled, and captures then. -/
theorem run_coalesced_cancelled :
    ∃ s, run step { ttl := 1 } [.get [] false, .call 0, .get [] true, .call 1, .abort 0, .capture 0, .capture 0, .call 1,
        .call 1, .capture 0, .captured 1 (.ok []), .capture 1, .capture 1, .capture 1, .capture 1, .call 1, .call 0] = some s ∧
      s.captures.length = 2 ∧ s.inner.lookup [] = some (.ready ⟨[], 0, 1⟩) ∧ s.Coalesced := by
  obtain ⟨s, hrun, hs⟩ := exists_run_of_any
    (show (run step { ttl := 1 } [.get [] false, .call 0, .get [] true, .call 1, .abort 0, .capture 0, .capture 0, .call 1,
        .call 1, .capture 0, .captured 1 (.ok []), .capture 1, .capture 1, .capture 1, .capture 1, .call 1, .call 0]).any
      (fun s => decide (s.captures.length = 2 ∧ s.inner.lookup [] = some (.ready ⟨[], 0, 1⟩))) = true by decide)
  obtain ⟨hcaptures, hentry⟩ := of_decide_eq_true hs
  exact ⟨s, hrun, hcaptures, hentry, run_coalesced (by decide) hrun⟩

end

end ShellEnvCache

end Builderbot.Staged
