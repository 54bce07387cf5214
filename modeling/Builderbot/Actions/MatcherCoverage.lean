import Builderbot.Actions.RunDetection

/-!
# What the regex matcher has tested

The matcher of `run_detector.rs` polls one `TerminalOutputProcessor` while chunks of output are appended to it. It goes on
one line before the number of lines that it saw last.

* `Seen` relates this number to the finalized lines of the last poll: the line after them is the only one that can change.
* `no_line_escapes` says that every line which is finalized, or shown at a poll, has been tested by this poll.
-/

namespace Builderbot.Actions

open Git (Text)
open Staged (TerminalOutputProcessor)

inductive MatcherEvent where
  /-- `append_output_chunk`. -/
  | chunk (raw : Text)
  /-- The timer of the matcher fires. -/
  | poll
deriving DecidableEq, Repr

/-- The buffer of an execution, its matcher, and the phase in the registry. -/
structure MatcherRun where
  processor : TerminalOutputProcessor
  detector : Detector
  phase : RunPhase
deriving DecidableEq

variable {lastCheckedIndex : ℕ}

section Matcher

variable (regexNew : Text → Option (Text → Option (Option Text)))

namespace MatcherRun

/-- The body of the loop of the matcher, with the snapshot that it reads. -/
def poll (s : MatcherRun) : MatcherRun :=
  match s.detector with
  | .matching pattern hasEndpointCapture lastCheckedIndex =>
    match checkLines regexNew pattern hasEndpointCapture lastCheckedIndex s.processor.snapshotLines with
    | .detected phase => { s with detector := .stopped, phase }
    | detector => { s with detector }
  | _ => s

def step (s : MatcherRun) : MatcherEvent → MatcherRun
  | .chunk raw => { s with processor := s.processor.processChunk raw }
  | .poll => s.poll regexNew

/-- The matcher before its first poll. -/
def start (pattern : Text) (hasEndpointCapture : Bool) : MatcherRun :=
  ⟨{}, .matching pattern hasEndpointCapture 0, .building⟩

end MatcherRun

/-- What the regex captures in a line. -/
def captures (pattern line : Text) : Option (Option Text) :=
  (regexNew pattern).bind fun re => re (normalizeForPrompt line)

/-- The phase for a match. -/
def runningAt (hasEndpointCapture : Bool) (endpoint : Option Text) : RunPhase :=
  .running (if hasEndpointCapture then endpoint else none)

/-- A poll is two steps of the detector of an `ActionRun`. Chunks may come between them, before the snapshot. -/
theorem poll_of_steps {run : ActionRun} {r : ActionRegistry} {executionId buffer : ℕ} {pattern : Text}
    {hasEndpointCapture : Bool} (hdetector : run.detector = .matching pattern hasEndpointCapture lastCheckedIndex)
    (hbuffer : r.outputBuffers.lookup executionId = some buffer) :
    ∃ reading : ActionRun, run.next regexNew r executionId .tick = some (reading, .none) ∧
      ∀ r' : ActionRegistry,
        let lines := r'.snapshotLines buffer
        reading.next regexNew r' executionId .detect =
          some ({ run with detector := checkLines regexNew pattern hasEndpointCapture lastCheckedIndex lines }, .none) := by
  refine ⟨{ run with detector := .matcherReading pattern hasEndpointCapture lastCheckedIndex buffer }, ?_, fun r' => rfl⟩
  simp only [ActionRun.next, ActionRun.tick, hdetector, hbuffer]

end Matcher

/-! ## Finalized lines stay -/

variable (p : TerminalOutputProcessor)

namespace TerminalOutput

theorem finalizedLines_processVisibleChar (ch : Char) :
    p.finalizedLines <+: (p.processVisibleChar ch).finalizedLines := by
  unfold TerminalOutputProcessor.processVisibleChar TerminalOutputProcessor.push
  split_ifs
  all_goals first | exact List.prefix_rfl | exact List.prefix_append _ _

theorem finalizedLines_processChar (ch : Char) : p.finalizedLines <+: (p.processChar ch).finalizedLines := by
  rw [TerminalOutputProcessor.processChar]
  rcases p.consumeEscapeOrControl ch with ⟨escapeState, _ | c⟩
  · exact List.prefix_rfl
  · exact finalizedLines_processVisibleChar { p with escapeState } c

theorem finalizedLines_processChunk (raw : Text) :
    p.finalizedLines <+: (p.processChunk raw).finalizedLines := by
  induction raw generalizing p with
  | nil => exact List.prefix_rfl
  | cons ch raw ih => exact (finalizedLines_processChar p ch).trans (ih (p.processChar ch))

/-- A snapshot is the finalized lines and at most one more. -/
theorem snapshotLines_cases :
    p.snapshotLines = p.finalizedLines ∨ p.snapshotLines = p.finalizedLines ++ [p.currentText] := by
  unfold TerminalOutputProcessor.snapshotLines
  split_ifs
  · exact .inr rfl
  · exact .inl rfl

theorem finalizedLines_prefix_snapshotLines : p.finalizedLines <+: p.snapshotLines := by
  rcases snapshotLines_cases p with h | h
  · exact h ▸ List.prefix_rfl
  · exact h ▸ List.prefix_append _ _

theorem length_snapshotLines_le : p.snapshotLines.length ≤ p.finalizedLines.length + 1 := by
  rcases snapshotLines_cases p with h | h
  · rw [h]
    omega
  · rw [h, List.length_append, List.length_singleton]

end TerminalOutput

theorem getElem?_eq_of_isPrefix {α : Type*} {xs ys : List α} {i : ℕ} (h : xs <+: ys) (hi : i < xs.length) :
    xs[i]? = ys[i]? := by
  obtain ⟨zs, rfl⟩ := h
  rw [List.getElem?_append_left hi]

/-! ## One poll -/

variable {events : List MatcherEvent} {s : MatcherRun}

section Coverage

variable {regexNew : Text → Option (Text → Option (Option Text))} {pattern : Text} {hasEndpointCapture : Bool}

/-- The line is among the lines that a poll goes through, and is shown with this text. -/
def MatcherRun.Reads (pattern : Text) (hasEndpointCapture : Bool) (s : MatcherRun) (i : ℕ) (line : Text) : Prop :=
  ∃ lastCheckedIndex, s.detector = .matching pattern hasEndpointCapture lastCheckedIndex ∧ lastCheckedIndex - 1 ≤ i ∧
    s.processor.snapshotLines[i]? = some line

/-- The loop of the poll does not end before the line. -/
def MatcherRun.Tests (regexNew : Text → Option (Text → Option (Option Text))) (pattern : Text) (hasEndpointCapture : Bool)
    (s : MatcherRun) (i : ℕ) (line : Text) : Prop :=
  s.Reads pattern hasEndpointCapture i line ∧
    ∀ j line', j < i → s.Reads pattern hasEndpointCapture j line' → captures regexNew pattern line' = none

variable (regexNew pattern hasEndpointCapture) in
/-- What `checkLines` comes to: no new lines, a first match, or no match. -/
theorem checkLines_cases (lastCheckedIndex : ℕ) (lines : List Text) :
    (lines.length ≤ lastCheckedIndex - 1 ∧ checkLines regexNew pattern hasEndpointCapture lastCheckedIndex lines =
        .matching pattern hasEndpointCapture lastCheckedIndex) ∨
      (lastCheckedIndex - 1 < lines.length ∧
        ((∃ line ∈ lines, ∃ endpoint, captures regexNew pattern line = some endpoint ∧
            checkLines regexNew pattern hasEndpointCapture lastCheckedIndex lines =
              .detected (runningAt hasEndpointCapture endpoint)) ∨
          ((∀ line ∈ lines.drop (lastCheckedIndex - 1), captures regexNew pattern line = none) ∧
            checkLines regexNew pattern hasEndpointCapture lastCheckedIndex lines =
              .matching pattern hasEndpointCapture lines.length))) := by
  rw [checkLines]
  by_cases hnone : lines.length ≤ lastCheckedIndex - 1
  · exact .inl ⟨hnone, if_pos hnone⟩
  · refine .inr ⟨Nat.lt_of_not_le hnone, ?_⟩
    rw [if_neg hnone]
    cases hfind : (lines.drop (lastCheckedIndex - 1)).findSome? (captures regexNew pattern) with
    | none =>
      refine .inr ⟨List.findSome?_eq_none_iff.mp hfind, ?_⟩
      unfold captures at hfind
      rw [hfind]
    | some endpoint =>
      obtain ⟨line, hline, hmatch⟩ := List.exists_of_findSome?_eq_some hfind
      refine .inl ⟨line, List.mem_of_mem_drop hline, endpoint, hmatch, ?_⟩
      unfold captures at hfind
      rw [hfind]
      rfl

/-! ## Every run -/

variable (regexNew pattern hasEndpointCapture) in
def matcherRun (events : List MatcherEvent) : MatcherRun :=
  events.foldl (MatcherRun.step regexNew) (.start pattern hasEndpointCapture)

theorem matcherRun_append (events : List MatcherEvent) (event : MatcherEvent) :
    matcherRun regexNew pattern hasEndpointCapture (events ++ [event]) =
      (matcherRun regexNew pattern hasEndpointCapture events).step regexNew event := by
  rw [matcherRun, List.foldl_append]
  rfl

/-- A poll only reads the buffer. -/
theorem processor_poll (events : List MatcherEvent) :
    (matcherRun regexNew pattern hasEndpointCapture (events ++ [.poll])).processor =
      (matcherRun regexNew pattern hasEndpointCapture events).processor := by
  rw [matcherRun_append, MatcherRun.step, MatcherRun.poll]
  split
  · split <;> rfl
  · rfl

variable (regexNew pattern hasEndpointCapture) in
/-- A poll within the events has read the line. -/
def ReadBy (events : List MatcherEvent) (i : ℕ) (line : Text) : Prop :=
  ∃ before, before ++ [.poll] <+: events ∧
    (matcherRun regexNew pattern hasEndpointCapture before).Reads pattern hasEndpointCapture i line

variable (regexNew pattern hasEndpointCapture) in
/-- A poll within the events has tested the line. -/
def TestedBy (events : List MatcherEvent) (i : ℕ) (line : Text) : Prop :=
  ∃ before, before ++ [.poll] <+: events ∧
    (matcherRun regexNew pattern hasEndpointCapture before).Tests regexNew pattern hasEndpointCapture i line

variable (regexNew pattern hasEndpointCapture) in
/-- A poll within the events was shown a line that the regex matches, with this phase for it. -/
def MatchShown (events : List MatcherEvent) (phase : RunPhase) : Prop :=
  ∃ before, before ++ [.poll] <+: events ∧
    ∃ line ∈ (matcherRun regexNew pattern hasEndpointCapture before).processor.snapshotLines, ∃ endpoint,
      captures regexNew pattern line = some endpoint ∧ phase = runningAt hasEndpointCapture endpoint

theorem TestedBy.mono {events' : List MatcherEvent} {i : ℕ} {line : Text}
    (h : TestedBy regexNew pattern hasEndpointCapture events i line) (hsub : events <+: events') :
    TestedBy regexNew pattern hasEndpointCapture events' i line := by
  obtain ⟨before, hbefore, htests⟩ := h
  exact ⟨before, List.IsPrefix.trans hbefore hsub, htests⟩

theorem MatchShown.mono {events' : List MatcherEvent} {phase : RunPhase}
    (h : MatchShown regexNew pattern hasEndpointCapture events phase) (hsub : events <+: events') :
    MatchShown regexNew pattern hasEndpointCapture events' phase := by
  obtain ⟨before, hbefore, hline⟩ := h
  exact ⟨before, List.IsPrefix.trans hbefore hsub, hline⟩

/-- The matcher has not matched yet. When it saw `lastCheckedIndex` lines, `n` of them were finalized: these have been
tested, and there was at most one more. -/
structure Seen (regexNew : Text → Option (Text → Option (Option Text))) (pattern : Text) (hasEndpointCapture : Bool)
    (events : List MatcherEvent) (s : MatcherRun) (lastCheckedIndex n : ℕ) : Prop where
  detector : s.detector = .matching pattern hasEndpointCapture lastCheckedIndex
  phase : s.phase = .building
  lastChecked : lastCheckedIndex ≤ n + 1
  finalized : n ≤ s.processor.finalizedLines.length
  tested : ∀ i line, i < n → s.processor.finalizedLines[i]? = some line →
    TestedBy regexNew pattern hasEndpointCapture events i line ∧ captures regexNew pattern line = none

/-- The matcher has matched, and stopped. -/
structure Reported (regexNew : Text → Option (Text → Option (Option Text))) (pattern : Text) (hasEndpointCapture : Bool)
    (events : List MatcherEvent) (s : MatcherRun) : Prop where
  detector : s.detector = .stopped
  phase : MatchShown regexNew pattern hasEndpointCapture events s.phase

/-- The next poll reads the finalized lines that no poll has tested. -/
theorem Seen.readBy {n i : ℕ} {line : Text}
    (h : Seen regexNew pattern hasEndpointCapture events (matcherRun regexNew pattern hasEndpointCapture events)
      lastCheckedIndex n)
    (hline : (matcherRun regexNew pattern hasEndpointCapture events).processor.finalizedLines[i]? = some line) :
    ReadBy regexNew pattern hasEndpointCapture (events ++ [.poll]) i line := by
  rcases Nat.lt_or_ge i n with hlt | hge
  · obtain ⟨before, hbefore, htests⟩ := (h.tested i line hlt hline).1
    exact ⟨before, List.IsPrefix.trans hbefore (List.prefix_append _ _), htests.1⟩
  · have hlast := h.lastChecked
    refine ⟨events, List.prefix_rfl, lastCheckedIndex, h.detector, by omega, ?_⟩
    rw [← hline]
    exact (getElem?_eq_of_isPrefix (TerminalOutput.finalizedLines_prefix_snapshotLines _)
      (List.getElem?_eq_some_iff.mp hline).1).symm

/-- A chunk leaves the lines that were finalized. -/
theorem Seen.chunk {n : ℕ}
    (h : Seen regexNew pattern hasEndpointCapture events s lastCheckedIndex n) (raw : Text) :
    Seen regexNew pattern hasEndpointCapture (events ++ [.chunk raw]) (s.step regexNew (.chunk raw)) lastCheckedIndex n := by
  have hstay := TerminalOutput.finalizedLines_processChunk s.processor raw
  refine ⟨h.detector, h.phase, h.lastChecked, h.finalized.trans hstay.length_le, fun i line hi hline => ?_⟩
  have hold : s.processor.finalizedLines[i]? = some line := by
    rw [← hline]
    exact getElem?_eq_of_isPrefix hstay (Nat.lt_of_lt_of_le hi h.finalized)
  obtain ⟨htested, hnone⟩ := h.tested i line hi hold
  exact ⟨htested.mono (List.prefix_append _ _), hnone⟩

/-- After a poll without a match, all finalized lines have been tested, and what is shown does not match. -/
structure AllSeen (regexNew : Text → Option (Text → Option (Option Text))) (pattern : Text) (hasEndpointCapture : Bool)
    (events : List MatcherEvent) (s : MatcherRun) : Prop where
  seen : ∃ lastCheckedIndex,
    Seen regexNew pattern hasEndpointCapture events s lastCheckedIndex s.processor.finalizedLines.length
  shown : ∀ line ∈ s.processor.snapshotLines, captures regexNew pattern line = none

/-- A poll tests what is new, or reports a match. -/
theorem Seen.poll {n : ℕ}
    (h : Seen regexNew pattern hasEndpointCapture events (matcherRun regexNew pattern hasEndpointCapture events)
      lastCheckedIndex n) :
    AllSeen regexNew pattern hasEndpointCapture (events ++ [.poll])
        (matcherRun regexNew pattern hasEndpointCapture (events ++ [.poll])) ∨
      Reported regexNew pattern hasEndpointCapture (events ++ [.poll])
        (matcherRun regexNew pattern hasEndpointCapture (events ++ [.poll])) := by
  rw [matcherRun_append]
  set s := matcherRun regexNew pattern hasEndpointCapture events with hs
  have hfinal := TerminalOutput.finalizedLines_prefix_snapshotLines s.processor
  have hlength := TerminalOutput.length_snapshotLines_le s.processor
  have hfinalLength := hfinal.length_le
  have hlast := h.lastChecked
  have hn := h.finalized
  have hold (i : ℕ) (line : Text) (hi : i < n) (hline : s.processor.finalizedLines[i]? = some line) :
      TestedBy regexNew pattern hasEndpointCapture (events ++ [.poll]) i line ∧ captures regexNew pattern line = none :=
    ⟨(h.tested i line hi hline).1.mono (List.prefix_append _ _), (h.tested i line hi hline).2⟩
  have hshownOld (i : ℕ) (line : Text) (hi : i < n) (hline : s.processor.snapshotLines[i]? = some line) :
      captures regexNew pattern line = none := by
    refine (hold i line hi ?_).2
    rw [← hline]
    exact getElem?_eq_of_isPrefix hfinal (Nat.lt_of_lt_of_le hi hn)
  -- `checkLines` has no new line, or finds a match, or tests all from the last line on
  rcases checkLines_cases regexNew pattern hasEndpointCapture lastCheckedIndex s.processor.snapshotLines with
    ⟨hshort, hcheck⟩ | ⟨hlong, ⟨line, hline, endpoint, hmatch, hcheck⟩ | ⟨hnone, hcheck⟩⟩
  · -- The line in progress has gone, and no line is new.
    have hall : s.processor.finalizedLines.length = n := by omega
    have hstep : s.step regexNew .poll = s := by
      rw [MatcherRun.step, MatcherRun.poll, h.detector]
      simp only [hcheck]
      rw [← h.detector]
    rw [hstep]
    refine .inl ⟨⟨lastCheckedIndex, h.detector, h.phase, by omega, le_rfl, fun i line hi => hold i line (by omega)⟩, ?_⟩
    intro line hline
    obtain ⟨i, hi, rfl⟩ := List.mem_iff_getElem.mp hline
    exact hshownOld i _ (by omega) (List.getElem?_eq_getElem hi)
  · have hstep : s.step regexNew .poll = { s with detector := .stopped, phase := runningAt hasEndpointCapture endpoint } := by
      rw [MatcherRun.step, MatcherRun.poll, h.detector]
      simp only [hcheck]
    rw [hstep]
    exact .inr ⟨rfl, events, List.prefix_rfl, line, hline, endpoint, hmatch, rfl⟩
  · have hstep : s.step regexNew .poll =
        { s with detector := .matching pattern hasEndpointCapture s.processor.snapshotLines.length } := by
      rw [MatcherRun.step, MatcherRun.poll, h.detector]
      simp only [hcheck]
    have hnew (i : ℕ) (line : Text) (hi : lastCheckedIndex - 1 ≤ i) (hline : s.processor.snapshotLines[i]? = some line) :
        captures regexNew pattern line = none := by
      refine hnone line (List.mem_iff_getElem?.mpr ⟨i - (lastCheckedIndex - 1), ?_⟩)
      rw [List.getElem?_drop, Nat.add_sub_cancel' hi, hline]
    rw [hstep]
    refine .inl ⟨⟨s.processor.snapshotLines.length, rfl, h.phase, hlength, le_rfl, fun i line hi hline => ?_⟩, ?_⟩
    · rcases Nat.lt_or_ge i n with hlt | hge
      · exact hold i line hlt hline
      · have hshown : s.processor.snapshotLines[i]? = some line := by
          rw [← hline]
          exact (getElem?_eq_of_isPrefix hfinal hi).symm
        refine ⟨⟨events, List.prefix_rfl, ⟨lastCheckedIndex, h.detector, by omega, hshown⟩, ?_⟩, hnew i line (by omega) hshown⟩
        -- `Tests` also asks that no line before it in the same poll matches
        rintro j line' - ⟨last, hdetector, hj, hline'⟩
        obtain rfl : lastCheckedIndex = last := by
          rw [h.detector] at hdetector
          injection hdetector
        exact hnew j line' hj hline'
    · intro line hline
      obtain ⟨i, hi, rfl⟩ := List.mem_iff_getElem.mp hline
      rcases Nat.lt_or_ge i n with hlt | hge
      · exact hshownOld i _ hlt (List.getElem?_eq_getElem hi)
      · exact hnew i _ (by omega) (List.getElem?_eq_getElem hi)

theorem Reported.running
    (h : Reported regexNew pattern hasEndpointCapture events s) : ∃ endpoint, s.phase = .running endpoint := by
  obtain ⟨before, -, line, -, endpoint, -, hphase⟩ := h.phase
  exact ⟨_, hphase⟩

/-- A matcher that has matched stays so. -/
theorem Reported.step (event : MatcherEvent) (h : Reported regexNew pattern hasEndpointCapture events s) :
    Reported regexNew pattern hasEndpointCapture (events ++ [event]) (s.step regexNew event) := by
  have hphase := h.phase.mono (List.prefix_append events [event])
  cases event with
  | chunk raw => exact ⟨h.detector, hphase⟩
  | poll =>
    have hstep : s.step regexNew .poll = s := by
      rw [MatcherRun.step, MatcherRun.poll, h.detector]
    rw [hstep]
    exact ⟨h.detector, hphase⟩

variable (regexNew pattern hasEndpointCapture) in
theorem seen_or_reported (events : List MatcherEvent) :
    (∃ lastCheckedIndex n, Seen regexNew pattern hasEndpointCapture events
        (matcherRun regexNew pattern hasEndpointCapture events) lastCheckedIndex n) ∨
      Reported regexNew pattern hasEndpointCapture events (matcherRun regexNew pattern hasEndpointCapture events) := by
  induction events using List.reverseRec with
  | nil => exact .inl ⟨0, 0, rfl, rfl, by omega, by exact Nat.zero_le _, fun i line hi => absurd hi (Nat.not_lt_zero i)⟩
  | append_singleton events event ih =>
    rcases ih with ⟨lastCheckedIndex, n, hseen⟩ | hreported
    · cases event with
      | chunk raw =>
        rw [matcherRun_append]
        exact .inl ⟨lastCheckedIndex, n, hseen.chunk raw⟩
      | poll => exact hseen.poll.imp (fun hall => ⟨_, _, hall.seen.choose_spec⟩) id
    · rw [matcherRun_append]
      exact .inr (hreported.step event)

variable (regexNew pattern hasEndpointCapture) in
/-- With a poll after any events: each finalized line has been read in its final form by this poll or before, unless the
matcher had matched and does not poll any more; it has been tested, unless the matcher has matched by now; if a line that
is shown matches, then the matcher has matched; and it reports `Running` only for a line that a poll was shown. -/
theorem no_line_escapes (events : List MatcherEvent) :
    let s := matcherRun regexNew pattern hasEndpointCapture events
    let t := matcherRun regexNew pattern hasEndpointCapture (events ++ [.poll])
    (∀ i line, s.processor.finalizedLines[i]? = some line →
        (ReadBy regexNew pattern hasEndpointCapture (events ++ [.poll]) i line ∨ ∃ endpoint, s.phase = .running endpoint) ∧
        (TestedBy regexNew pattern hasEndpointCapture (events ++ [.poll]) i line ∨ ∃ endpoint, t.phase = .running endpoint)) ∧
      (∀ line ∈ s.processor.snapshotLines, captures regexNew pattern line ≠ none → ∃ endpoint, t.phase = .running endpoint) ∧
      (∀ endpoint, s.phase = .running endpoint →
        MatchShown regexNew pattern hasEndpointCapture events (.running endpoint)) := by
  intro s t
  rcases seen_or_reported regexNew pattern hasEndpointCapture events with ⟨lastCheckedIndex, n, hseen⟩ | hreported
  · have hphase (endpoint : Option Text) (h : s.phase = .running endpoint) : False :=
      RunPhase.noConfusion (hseen.phase.symm.trans h)
    rcases hseen.poll with hall | hreported
    · have hprocessor : t.processor = s.processor := processor_poll events
      obtain ⟨lastCheckedIndex', hseen'⟩ := hall.seen
      refine ⟨fun i line hline => ⟨.inl (hseen.readBy hline), .inl ?_⟩,
        fun line hline hmatch => absurd (hall.shown line ?_) hmatch, fun endpoint h => (hphase endpoint h).elim⟩
      · rw [← hprocessor] at hline
        exact (hseen'.tested i line (List.getElem?_eq_some_iff.mp hline).1 hline).1
      · show line ∈ t.processor.snapshotLines
        rwa [hprocessor]
    · have hrunning := hreported.running
      exact ⟨fun i line hline => ⟨.inl (hseen.readBy hline), .inr hrunning⟩, fun _ _ _ => hrunning,
        fun endpoint h => (hphase endpoint h).elim⟩
  · have hrunning : ∃ endpoint, t.phase = .running endpoint := by
      have hstep := (hreported.step .poll).running
      rwa [← matcherRun_append] at hstep
    refine ⟨fun _ _ _ => ⟨.inr hreported.running, .inr hrunning⟩, fun _ _ _ => hrunning, fun endpoint h => ?_⟩
    rw [← h]
    exact hreported.phase

end Coverage

/-! ## What the regex is shown -/

/-- A tab is shown as a space. -/
def expandTab (c : Char) : Char := if c = '\t' then ' ' else c

/-- A character that stays on its line. -/
abbrev Stays (c : Char) : Prop := c = '\t' ∨ Staged.isControl c = false

/-- The lines hold no line ends and no control characters other than tabs. -/
def AllStay (p : TerminalOutputProcessor) : Prop := ∀ line ∈ p.currentText :: p.finalizedLines, ∀ c ∈ line, Stays c

theorem of_consumeEscapeOrControl {ch c : Char} (h : (p.consumeEscapeOrControl ch).2 = some c) :
    c = '\n' ∨ c = '\r' ∨ Stays c := by
  unfold TerminalOutputProcessor.consumeEscapeOrControl at h
  split at h
  case h_1 =>
    split_ifs at h with hesc hcsi hosc hspace hhostile <;> cases h
    case pos => exact hspace.imp_right (.imp_right .inl)
    case neg =>
      simp only [not_or, ← Char.toNat_inj] at hspace
      simp [Staged.isPromptHostileControl] at hhostile hspace
      simp [Stays, Staged.isControl]
      omega
  all_goals split_ifs at h

/-- A line is rendered as it is. -/
theorem processChunk_stays {line : Text} (h : ∀ c ∈ line, Stays c) (acc : Text) :
    ({ currentText := acc } : TerminalOutputProcessor).processChunk line = { currentText := acc ++ line } := by
  induction line generalizing acc with
  | nil => rw [List.append_nil]; rfl
  | cons c line ih =>
    obtain ⟨hc, hline⟩ := List.forall_mem_cons.mp h
    have hplain : Staged.IsPlain c := fun hctl => .inr (.inr (hc.resolve_right (by simp [hctl])))
    have hlf : c ≠ '\n' := by rintro rfl; exact absurd hc (by decide)
    have hcr : c ≠ '\r' := by rintro rfl; exact absurd hc (by decide)
    have hstep : ({ currentText := acc } : TerminalOutputProcessor).processChar c = { currentText := acc ++ [c] } := by
      rw [Staged.processChar_of_plain rfl hplain]
      simp [TerminalOutputProcessor.processVisibleChar, hlf, hcr]
    rw [TerminalOutputProcessor.processChunk, List.foldl_cons, hstep]
    exact (ih hline _).trans (by rw [List.append_assoc]; rfl)

theorem normalizeForPrompt_stays {line : Text} (h : ∀ c ∈ line, Stays c) : normalizeForPrompt line = line.map expandTab := by
  rw [normalizeForPrompt, processChunk_stays h [], List.nil_append]
  have hjoin : ['\n'].intercalate ({ currentText := line } : TerminalOutputProcessor).finish = line := by
    cases line with
    | nil => rfl
    | cons c line => exact List.intercalate_singleton
  rw [hjoin, ← List.filterMap_eq_map]
  refine List.filterMap_congr fun c hc => ?_
  rcases h c hc with rfl | hctl
  · rfl
  · have hlf : c ≠ '\n' := by rintro rfl; exact absurd hctl (by decide)
    have htab : c ≠ '\t' := by rintro rfl; exact absurd hctl (by decide)
    have hhostile : Staged.isPromptHostileControl c = false := by
      simp [Staged.isControl] at hctl
      simp [Staged.isPromptHostileControl]
      omega
    simp [hlf, htab, hhostile, expandTab]

theorem AllStay.processVisibleChar {p : TerminalOutputProcessor} (h : AllStay p) {c : Char}
    (hc : c = '\n' ∨ c = '\r' ∨ Stays c) : AllStay (p.processVisibleChar c) := by
  unfold TerminalOutputProcessor.processVisibleChar TerminalOutputProcessor.push
  split_ifs
  all_goals simp only [AllStay, List.forall_mem_cons, List.forall_mem_append] at h ⊢
  all_goals grind

theorem AllStay.processChunk {p : TerminalOutputProcessor} (h : AllStay p) (raw : Text) : AllStay (p.processChunk raw) := by
  induction raw generalizing p with
  | nil => exact h
  | cons ch raw ih =>
    refine ih (p := p.processChar ch) ?_
    rw [TerminalOutputProcessor.processChar]
    rcases hconsume : p.consumeEscapeOrControl ch with ⟨escapeState, _ | c⟩
    · exact h
    · exact AllStay.processVisibleChar (p := { p with escapeState }) h (of_consumeEscapeOrControl p (congrArg Prod.snd hconsume))

/-- The regex is given each line as it is rendered, with spaces for tabs: the second pass over it changes nothing else. -/
theorem map_normalizeForPrompt_snapshotLines (chunks : List Text) :
    let p := chunks.foldl TerminalOutputProcessor.processChunk {}
    p.snapshotLines.map normalizeForPrompt = p.snapshotLines.map (List.map expandTab) := by
  intro p
  have hall : AllStay p := List.foldlRecOn chunks _ (by simp [AllStay]) fun p hp raw _ => hp.processChunk raw
  refine List.map_congr_left fun line hline => normalizeForPrompt_stays (hall line ?_)
  rcases TerminalOutput.snapshotLines_cases p with h | h <;> rw [h] at hline
  · exact List.mem_cons_of_mem _ hline
  · exact List.mem_cons.mpr (Or.comm.mp ((List.mem_append.mp hline).imp_right List.mem_singleton.mp))

end Builderbot.Actions
