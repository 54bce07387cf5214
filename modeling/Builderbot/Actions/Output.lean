import Builderbot.Actions.Executor

/-!
# The output of an action

`get_buffered_output` finds every execution from its start until it is cleared. What it finds after the end is what
the completion thread copied when the process had exited, and the completion thread does not wait for the readers:
`run_output_iff` says that nothing is lost exactly when no reader adds a chunk after the copy.
-/

namespace Builderbot.Actions

def ReaderPhase.chunk : ReaderPhase → Option OutputChunk
  | .read chunk | .stored chunk => some chunk
  | .reading | .finished => none

/-- What is in the buffer and has no event yet. -/
def ReaderPhase.pending : ReaderPhase → List OutputChunk
  | .stored chunk => [chunk]
  | .reading | .read _ | .finished => []

/-- The chunks of a stream, in order. -/
def ofStream (stream : OutputStream) (chunks : List OutputChunk) : List OutputChunk :=
  chunks.filter fun c => c.stream = stream

/-- The output is what the `Output` events had, for each stream. -/
def SameOutput (output events : List OutputChunk) : Prop := ∀ stream, ofStream stream output = ofStream stream events

variable {s t : Executor} {id : ℕ} {e e' : Execution} {stream : OutputStream}

/-- Where an execution is in the two maps. -/
structure Executor.Placed (s : Executor) (id : ℕ) (e : Execution) : Prop where
  running : (s.running.lookup id).isSome = true ↔ e.phase.rank < CompletionPhase.removed.rank
  moving : s.moving = some id ↔
    CompletionPhase.removed.rank ≤ e.phase.rank ∧ e.phase.rank < CompletionPhase.inserted.rank
  completed : s.completed.lookup id =
    if CompletionPhase.inserted.rank ≤ e.phase.rank ∧ id ∉ s.cleared then some e.taken else none
  cleared : id ∈ s.cleared → CompletionPhase.inserted.rank ≤ e.phase.rank

/-- The chunks of an execution are in the buffer before they have an event. -/
structure Execution.Streams (e : Execution) : Prop where
  outputs : ∀ stream, ofStream stream e.buffer = ofStream stream e.outputs ++ (e.readers stream).pending
  own : ∀ stream, ∀ c ∈ (e.readers stream).chunk, c.stream = stream
  taken : CompletionPhase.copied.rank ≤ e.phase.rank → e.taken <+: e.buffer

structure Executor.Inv (s : Executor) : Prop where
  streams : ∀ (id : ℕ) e, s.executions[id]? = some e → e.Streams
  placed : ∀ (id : ℕ) e, s.executions[id]? = some e → s.Placed id e
  moving : ∀ id, s.moving = some id → id < s.executions.length
  absent : ∀ id, s.executions.length ≤ id →
    s.running.lookup id = none ∧ s.completed.lookup id = none ∧ id ∉ s.cleared
  lookups : ∀ l ∈ s.lookups, l.registered = true → ∃ e, s.executions[l.id]? = some e ∧
    (l.missed = true → CompletionPhase.inserted.rank ≤ e.phase.rank)
  answers : ∀ a ∈ s.answers, a.registered = true → a.cleared = false → a.output.isSome = true

/-! ## Readers -/

theorem Execution.readers_setReader (e : Execution) (stream : OutputStream) (phase : ReaderPhase)
    (stream' : OutputStream) :
    (e.setReader stream phase).readers stream' = if stream' = stream then phase else e.readers stream' :=
  Function.update_apply e.readers stream phase stream'

theorem Execution.Streams.setReader_own (h : e.Streams) {phase : ReaderPhase}
    (hown : ∀ c ∈ phase.chunk, c.stream = stream) (stream' : OutputStream) :
    ∀ c ∈ ((e.setReader stream phase).readers stream').chunk, c.stream = stream' := by
  intro c hc
  rw [readers_setReader] at hc
  split at hc
  case isTrue hstream =>
    rw [hstream]
    exact hown c hc
  case isFalse => exact h.own stream' c hc

/-- A reader that keeps its pending chunks keeps the order. -/
theorem Execution.Streams.setReader (h : e.Streams) {phase : ReaderPhase}
    (hpending : phase.pending = (e.readers stream).pending) (hown : ∀ c ∈ phase.chunk, c.stream = stream) :
    (e.setReader stream phase).Streams where
  outputs stream' := by
    rw [readers_setReader]
    split
    case isTrue hstream =>
      rw [hpending, ← hstream]
      exact h.outputs stream'
    case isFalse => exact h.outputs stream'
  own := h.setReader_own hown
  taken := h.taken

theorem ofStream_append (stream : OutputStream) (a b : List OutputChunk) :
    ofStream stream (a ++ b) = ofStream stream a ++ ofStream stream b := List.filter_append _ _

theorem ofStream_singleton (stream : OutputStream) (c : OutputChunk) :
    ofStream stream [c] = if stream = c.stream then [c] else [] := by
  rw [ofStream, List.filter_singleton]
  by_cases h : c.stream = stream
  · rw [decide_eq_true h, if_pos h.symm]
    rfl
  · rw [decide_eq_false h, if_neg (Ne.symm h)]
    rfl

/-- A reader adds the chunks to the buffer, and keeps the rest of the execution. -/
structure Execution.Reads (new : List OutputChunk) (e e' : Execution) : Prop where
  streams : e.Streams → e'.Streams
  buffer : e'.buffer = e.buffer ++ new
  phase : e'.phase = e.phase
  taken : e'.taken = e.taken

/-- A read adds no chunk yet. -/
theorem reads_read {bytes : List UInt8} {timestamp : ℤ} (h : e.read stream bytes timestamp = some e') :
    Execution.Reads [] e e' := by
  rw [Execution.read] at h
  split at h
  case isTrue hreading =>
    cases h
    refine ⟨fun hs => hs.setReader ?_ ?_, (List.append_nil _).symm, rfl, rfl⟩
    · rw [hreading.1]
      rfl
    · rintro c ⟨⟩
      rfl
  case isFalse => cases h

/-- A store adds the chunk of the reader. -/
theorem reads_store (h : e.store stream = some e') : ∃ chunk, Execution.Reads [chunk] e e' := by
  rw [Execution.store] at h
  split at h
  case h_1 chunk hread =>
    cases h
    refine ⟨chunk, fun hs => ?_, rfl, rfl, rfl⟩
    have hown : chunk.stream = stream := hs.own stream chunk (by rw [hread]; rfl)
    refine ⟨fun stream' => ?_, hs.setReader_own ?_, fun hcopied => (hs.taken hcopied).trans (List.prefix_append _ _)⟩
    · have hold := hs.outputs stream'
      show ofStream stream' (e.buffer ++ [chunk]) =
        ofStream stream' e.outputs ++ ((e.setReader stream (.stored chunk)).readers stream').pending
      rw [ofStream_append, ofStream_singleton, hown, Execution.readers_setReader]
      split
      case isTrue hstream =>
        rw [hstream, hread, ReaderPhase.pending, List.append_nil] at hold
        rw [hstream, hold, ReaderPhase.pending]
      case isFalse => rw [List.append_nil, hold]
    · rintro c ⟨⟩
      exact hown
  all_goals cases h

/-- An event is sent for a chunk that is stored. -/
theorem reads_emit (h : e.emit stream = some e') : Execution.Reads [] e e' := by
  rw [Execution.emit] at h
  split at h
  case h_1 chunk hstored =>
    cases h
    refine ⟨fun hs => ?_, (List.append_nil _).symm, rfl, rfl⟩
    have hown : chunk.stream = stream := hs.own stream chunk (by rw [hstored]; rfl)
    refine ⟨fun stream' => ?_, hs.setReader_own ?_, hs.taken⟩
    · have hold := hs.outputs stream'
      show ofStream stream' e.buffer =
        ofStream stream' (e.outputs ++ [chunk]) ++ ((e.setReader stream .reading).readers stream').pending
      rw [ofStream_append, ofStream_singleton, hown, Execution.readers_setReader, hold]
      split
      case isTrue hstream => rw [hstream, hstored, ReaderPhase.pending, ReaderPhase.pending, List.append_nil]
      case isFalse => rw [List.append_nil]
    · intro c hc
      cases hc
  all_goals cases h

/-- The end of a stream adds nothing. -/
theorem reads_eof (h : e.eof stream = some e') : Execution.Reads [] e e' := by
  rw [Execution.eof] at h
  split at h
  case isTrue hreading =>
    cases h
    refine ⟨fun hs => hs.setReader ?_ ?_, (List.append_nil _).symm, rfl, rfl⟩
    · rw [hreading]
      rfl
    · intro c hc
      cases hc
  case isFalse => cases h

/-! ## The maps -/

variable {f : Execution → Option Execution} {new : CompletionPhase} {call : ℕ} {old : CompletionPhase} {pid : ℕ}

namespace Executor

/-- Nothing is different for the execution. -/
structure SameAt (s t : Executor) (id : ℕ) : Prop where
  running : t.running.lookup id = s.running.lookup id
  moving : t.moving = some id ↔ s.moving = some id
  completed : t.completed.lookup id = s.completed.lookup id
  cleared : id ∈ t.cleared ↔ id ∈ s.cleared

/-- The completion thread goes on within one part of its way. -/
theorem Placed.of_rank (h : s.Placed id e) (hsame : s.SameAt t id)
    (hremoved : CompletionPhase.removed.rank ≤ e'.phase.rank ↔ CompletionPhase.removed.rank ≤ e.phase.rank)
    (hinserted : CompletionPhase.inserted.rank ≤ e'.phase.rank ↔ CompletionPhase.inserted.rank ≤ e.phase.rank)
    (htaken : CompletionPhase.inserted.rank ≤ e.phase.rank → e'.taken = e.taken) : t.Placed id e' where
  running := by rw [hsame.running, h.running, ← not_le, ← hremoved, not_le]
  moving := by rw [hsame.moving, h.moving, hremoved, ← not_le, ← hinserted, not_le]
  completed := by
    rw [hsame.completed, h.completed]
    simp only [hsame.cleared, hinserted]
    split
    case isTrue hin => rw [htaken hin.1]
    case isFalse => rfl
  cleared hin := hinserted.mpr (h.cleared (hsame.cleared.mp hin))

theorem Placed.of_sameAt (h : s.Placed id e) (hsame : s.SameAt t id) : t.Placed id e :=
  h.of_rank hsame Iff.rfl Iff.rfl fun _ => rfl

/-- Where an execution with a known phase is. -/
theorem Placed.of_phase (phase : CompletionPhase) (hphase : e.phase = phase)
    (hrunning : (s.running.lookup id).isSome = true ↔ phase.rank < CompletionPhase.removed.rank)
    (hmoving : s.moving = some id ↔
      CompletionPhase.removed.rank ≤ phase.rank ∧ phase.rank < CompletionPhase.inserted.rank)
    (hcompleted : s.completed.lookup id =
      if CompletionPhase.inserted.rank ≤ phase.rank then some e.taken else none)
    (hcleared : id ∉ s.cleared) : s.Placed id e := by
  subst hphase
  refine ⟨hrunning, hmoving, ?_, fun hin => absurd hin hcleared⟩
  rw [hcompleted]
  by_cases hinserted : CompletionPhase.inserted.rank ≤ e.phase.rank
  · rw [if_pos hinserted, if_pos ⟨hinserted, hcleared⟩]
  · rw [if_neg hinserted, if_neg fun hin => hinserted hin.1]

/-- Nothing is cleared before it is in `completed`. -/
theorem Placed.uncleared (h : s.Placed id e) (hrank : e.phase.rank < CompletionPhase.inserted.rank) :
    id ∉ s.cleared ∧ s.completed.lookup id = none := by
  refine ⟨fun hin => absurd (h.cleared hin) (Nat.not_le_of_lt hrank), ?_⟩
  rw [h.completed, if_neg]
  exact fun hin => absurd hin.1 (Nat.not_le_of_lt hrank)

/-- A thread of one execution takes a step. -/
theorem Inv.update (h : s.Inv) (he : s.executions[id]? = some e) (hexecutions : t.executions = s.executions.set id e')
    (hstreams : e'.Streams) (hplaced : t.Placed id e') (hsame : ∀ j, j ≠ id → s.SameAt t j)
    (hrank : e.phase.rank ≤ e'.phase.rank) (hlookups : t.lookups = s.lookups) (hanswers : t.answers = s.answers) :
    t.Inv := by
  obtain ⟨hid, -⟩ := List.getElem?_eq_some_iff.mp he
  have hself : t.executions[id]? = some e' := by
    rw [hexecutions, List.getElem?_set_self hid]
  have hother (j : ℕ) (hj : j ≠ id) : t.executions[j]? = s.executions[j]? := by
    rw [hexecutions, List.getElem?_set_ne (Ne.symm hj)]
  -- one field of the invariant each; what is not the execution itself is kept
  refine ⟨fun j e₂ hj => ?_, fun j e₂ hj => ?_, fun j hj => ?_, fun j hj => ?_, fun l hl hregistered => ?_, ?_⟩
  · by_cases hne : j = id
    · subst hne
      rw [hself, Option.some.injEq] at hj
      exact hj ▸ hstreams
    · exact h.streams j e₂ ((hother j hne).symm.trans hj)
  · by_cases hne : j = id
    · subst hne
      rw [hself, Option.some.injEq] at hj
      exact hj ▸ hplaced
    · exact (h.placed j e₂ ((hother j hne).symm.trans hj)).of_sameAt (hsame j hne)
  · rw [hexecutions, List.length_set]
    by_cases hne : j = id
    · exact hne ▸ hid
    · exact h.moving j ((hsame j hne).moving.mp hj)
  · rw [hexecutions, List.length_set] at hj
    have hne : j ≠ id := by omega
    obtain ⟨hrunning, hcompleted, hcleared⟩ := h.absent j hj
    have hs := hsame j hne
    exact ⟨hs.running.trans hrunning, hs.completed.trans hcompleted, fun hin => hcleared (hs.cleared.mp hin)⟩
  · rw [hlookups] at hl
    obtain ⟨e₂, he₂, hmissed⟩ := h.lookups l hl hregistered
    by_cases hne : l.id = id
    · rw [hne] at he₂ ⊢
      rw [he, Option.some.injEq] at he₂
      subst he₂
      exact ⟨e', hself, fun hm => Nat.le_trans (hmissed hm) hrank⟩
    · exact ⟨e₂, (hother l.id hne).trans he₂, hmissed⟩
  · rw [hanswers]
    exact h.answers

theorem inExecution_eq_some (h : s.inExecution id f = some t) :
    ∃ e e', s.executions[id]? = some e ∧ f e = some e' ∧ t = s.setExecution id e' := by
  obtain ⟨e, he, hmap⟩ := Option.bind_eq_some_iff.mp h
  obtain ⟨e', he', rfl⟩ := Option.map_eq_some_iff.mp hmap
  exact ⟨e, e', he, he', rfl⟩

/-- The completion thread goes from one phase to the next. -/
theorem advance_eq_some (h : s.advance id old new f = some t) :
    ∃ e e', s.executions[id]? = some e ∧ e.phase = old ∧ f e = some e' ∧ t = s.setExecution id { e' with phase := new } := by
  obtain ⟨e, e₂, he, hstep, rfl⟩ := inExecution_eq_some h
  split at hstep
  case isTrue hphase =>
    obtain ⟨e', he', rfl⟩ := Option.map_eq_some_iff.mp hstep
    exact ⟨e, e', he, hphase, he', rfl⟩
  case isFalse => cases hstep

theorem sameAt_setExecution (s : Executor) (id : ℕ) (e : Execution) (j : ℕ) : s.SameAt (s.setExecution id e) j :=
  ⟨rfl, Iff.rfl, rfl, Iff.rfl⟩

/-- A step of a reader or of the process. -/
theorem Inv.inExecution (h : s.Inv) (hf : ∀ e e', f e = some e' → ∃ new, Execution.Reads new e e')
    (hstep : s.inExecution id f = some t) : t.Inv := by
  obtain ⟨e, e', he, hfe, rfl⟩ := inExecution_eq_some hstep
  obtain ⟨new, hreads⟩ := hf e e' hfe
  refine h.update he rfl (hreads.streams (h.streams id e he)) ?_ (fun j _ => sameAt_setExecution s id e' j) ?_ rfl rfl
  · refine (h.placed id e he).of_rank (sameAt_setExecution s id e' id) ?_ ?_ fun _ => hreads.taken
    · rw [hreads.phase]
    · rw [hreads.phase]
  · rw [hreads.phase]

/-- Everything that the invariant is about is as it was. -/
theorem Inv.of_eq (h : s.Inv) (hexecutions : t.executions = s.executions) (hrunning : t.running = s.running)
    (hcompleted : t.completed = s.completed) (hmoving : t.moving = s.moving) (hcleared : t.cleared = s.cleared)
    (hlookups : ∀ l ∈ t.lookups, l.registered = true → ∃ e, s.executions[l.id]? = some e ∧
      (l.missed = true → CompletionPhase.inserted.rank ≤ e.phase.rank))
    (hanswers : ∀ a ∈ t.answers, a.registered = true → a.cleared = false → a.output.isSome = true) : t.Inv := by
  have hsame (j : ℕ) : s.SameAt t j := by
    refine ⟨?_, ?_, ?_, ?_⟩
    · rw [hrunning]
    · rw [hmoving]
    · rw [hcompleted]
    · rw [hcleared]
  refine ⟨?_, fun id e he => ?_, fun id hid => ?_, fun id hid => ?_, ?_, hanswers⟩
  · rw [hexecutions]
    exact h.streams
  · rw [hexecutions] at he
    exact (h.placed id e he).of_sameAt (hsame id)
  · rw [hexecutions]
    rw [hmoving] at hid
    exact h.moving id hid
  · rw [hexecutions] at hid
    rw [hrunning, hcompleted, hcleared]
    exact h.absent id hid
  · rw [hexecutions]
    exact hlookups

/-! ## Steps -/

theorem Inv.start (h : s.Inv) {pty : Bool} (hstep : s.step (.start pid pty) = some t) : t.Inv := by
  rw [step] at hstep
  split at hstep
  case isFalse => cases hstep
  case isTrue hfree =>
    cases hstep
    have hnew := h.absent s.executions.length (Nat.le_refl _)
    have hsame (j : ℕ) (hj : j ≠ s.executions.length) : s.SameAt { s with
        executions := s.executions ++ [{ pid, readers := readersFor pty }]
        running := s.running.insert s.executions.length ⟨some pid⟩
        sessions := s.sessions.insert pid (.action s.executions.length) } j :=
      ⟨AList.lookup_insert_ne hj, Iff.rfl, rfl, Iff.rfl⟩
    refine ⟨fun j e hj => ?_, fun j e hj => ?_, fun j hj => ?_, fun j hj => ?_, fun l hl hregistered => ?_, h.answers⟩
    -- every field is shown for the old executions and for the new one
    · rcases of_getElem?_concat hj with hj | ⟨-, rfl⟩
      · exact h.streams j e hj
      · refine ⟨fun stream => ?_, fun stream c hc => ?_, fun hcopied => absurd hcopied (Nat.not_succ_le_zero 3)⟩
        · cases stream <;> cases pty <;> rfl
        · cases stream <;> cases pty <;> cases hc
    · rcases of_getElem?_concat hj with hj | ⟨rfl, rfl⟩
      · obtain ⟨hlt, -⟩ := List.getElem?_eq_some_iff.mp hj
        exact (h.placed j e hj).of_sameAt (hsame j (Nat.ne_of_lt hlt))
      · refine ⟨?_, ?_, ?_, fun hin => absurd hin hnew.2.2⟩
        · rw [AList.lookup_insert]
          exact ⟨fun _ => Nat.zero_lt_succ 2, fun _ => rfl⟩
        · rw [hfree.1]
          exact ⟨fun hnone => (by cases hnone), fun hrank => absurd hrank.1 (Nat.not_succ_le_zero 2)⟩
        · rw [hnew.2.1, if_neg]
          exact fun hrank => absurd hrank.1 (Nat.not_succ_le_zero 4)
    · rw [List.length_append]
      exact Nat.lt_add_right _ (h.moving j hj)
    · rw [List.length_append, List.length_singleton] at hj
      have hs := hsame j (by omega)
      obtain ⟨hrunning, hcompleted, hcleared⟩ := h.absent j (by omega)
      exact ⟨hs.running.trans hrunning, hcompleted, hcleared⟩
    · obtain ⟨e, he, hmissed⟩ := h.lookups l hl hregistered
      obtain ⟨hlt, -⟩ := List.getElem?_eq_some_iff.mp he
      exact ⟨e, by rw [List.getElem?_append_left hlt, he], hmissed⟩

/-- The streams of an execution whose completion thread has taken a step. -/
theorem streams_advance (h : e.Streams)
    (hreaders : e'.readers = e.readers ∧ e'.buffer = e.buffer ∧ e'.outputs = e.outputs)
    (htaken : CompletionPhase.copied.rank ≤ new.rank → e'.taken <+: e.buffer) :
    ({ e' with phase := new } : Execution).Streams := by
  obtain ⟨hreaders, hbuffer, houtputs⟩ := hreaders
  refine ⟨?_, ?_, ?_⟩
  · show ∀ stream, ofStream stream e'.buffer = ofStream stream e'.outputs ++ (e'.readers stream).pending
    rw [hreaders, hbuffer, houtputs]
    exact h.outputs
  · show ∀ stream, ∀ c ∈ (e'.readers stream).chunk, c.stream = stream
    rw [hreaders]
    exact h.own
  · show _ → e'.taken <+: e'.buffer
    rw [hbuffer]
    exact htaken

/-- The completion thread takes a step within one part of its way. -/
theorem Inv.advance (h : s.Inv) (he : s.executions[id]? = some e) (hphase : e.phase = old)
    (hexecutions : t.executions = s.executions.set id { e' with phase := new })
    (hreaders : e'.readers = e.readers ∧ e'.buffer = e.buffer ∧ e'.outputs = e.outputs)
    (htaken : CompletionPhase.copied.rank ≤ new.rank → e'.taken <+: e.buffer)
    (hkept : CompletionPhase.inserted.rank ≤ old.rank → e'.taken = e.taken) (hsame : ∀ j, s.SameAt t j)
    (hremoved : CompletionPhase.removed.rank ≤ new.rank ↔ CompletionPhase.removed.rank ≤ old.rank)
    (hinserted : CompletionPhase.inserted.rank ≤ new.rank ↔ CompletionPhase.inserted.rank ≤ old.rank)
    (hrank : old.rank ≤ new.rank) (hlookups : t.lookups = s.lookups) (hanswers : t.answers = s.answers) : t.Inv := by
  subst hphase
  exact h.update he hexecutions (streams_advance (h.streams id e he) hreaders htaken)
    ((h.placed id e he).of_rank (hsame id) hremoved hinserted hkept) (fun j _ => hsame j) hrank hlookups hanswers

theorem Inv.wait (h : s.Inv) (hstep : s.step (.wait id) = some t) : t.Inv := by
  obtain ⟨e, e', he, hphase, hexit, rfl⟩ := advance_eq_some (show s.advance _ _ _ _ = some t from hstep)
  split at hexit
  case isFalse => cases hexit
  case isTrue =>
    cases hexit
    exact h.advance he hphase rfl ⟨rfl, rfl, rfl⟩ (fun hcopied => absurd hcopied (by decide)) (fun _ => rfl)
      (sameAt_setExecution s id _) (by decide) (by decide) (by decide) rfl rfl

theorem Inv.takeFlag (h : s.Inv) (hstep : s.step (.takeFlag id) = some t) : t.Inv := by
  obtain ⟨u, hu, rfl⟩ := Option.map_eq_some_iff.mp (show Option.map _ _ = some t from hstep)
  obtain ⟨e, e', he, hphase, hflag, rfl⟩ := advance_eq_some hu
  cases hflag
  exact h.advance he hphase rfl ⟨rfl, rfl, rfl⟩ (fun hcopied => absurd hcopied (by decide)) (fun _ => rfl)
    (fun _ => ⟨rfl, Iff.rfl, rfl, Iff.rfl⟩) (by decide) (by decide) (by decide) rfl rfl

theorem Inv.copy (h : s.Inv) (hstep : s.step (.copy id) = some t) : t.Inv := by
  obtain ⟨e, e', he, hphase, hcopy, rfl⟩ := advance_eq_some (show s.advance _ _ _ _ = some t from hstep)
  cases hcopy
  exact h.advance he hphase rfl ⟨rfl, rfl, rfl⟩ (fun _ => List.prefix_refl _) (fun hin => absurd hin (by decide))
    (sameAt_setExecution s id _) (by decide) (by decide) (by decide) rfl rfl

theorem Inv.report (h : s.Inv) (hstep : s.step (.report id) = some t) : t.Inv := by
  obtain ⟨e, e', he, hphase, hreport, rfl⟩ := advance_eq_some (show s.advance _ _ _ _ = some t from hstep)
  cases hreport
  have htaken : e.taken <+: e.buffer := (h.streams id e he).taken (by rw [hphase]; decide)
  exact h.advance he hphase rfl ⟨rfl, rfl, rfl⟩ (fun _ => htaken) (fun _ => rfl)
    (sameAt_setExecution s id _) (by decide) (by decide) (by decide) rfl rfl

/-- The entry leaves `running`, and the lock is kept. -/
theorem Inv.remove_eq (h : s.Inv) (hstep : s.step (.remove id) = some t) :
    s.moving = none ∧ ∃ e, s.executions[id]? = some e ∧ e.phase = .flagged ∧
      t = { s.setExecution id { e with phase := .removed } with running := s.running.erase id, moving := some id } := by
  rw [step] at hstep
  split at hstep
  case isFalse => cases hstep
  case isTrue hfree =>
    split at hstep
    case h_1 _ hrunning =>
      obtain ⟨u, hu, rfl⟩ := Option.map_eq_some_iff.mp hstep
      obtain ⟨e, e', he, hphase, hremove, rfl⟩ := advance_eq_some hu
      cases hremove
      exact ⟨hfree, e, he, hphase, rfl⟩
    case h_2 hrunning =>
      obtain ⟨e, e', he, hphase, hremove, rfl⟩ := advance_eq_some hstep
      have hsome := (h.placed id e he).running.mpr (by rw [hphase]; decide)
      rw [hrunning] at hsome
      cases hsome

/-- The execution leaves the running ones with its buffer. -/
theorem Inv.remove (h : s.Inv) (hstep : s.step (.remove id) = some t) : t.Inv := by
  obtain ⟨hfree, e, he, hphase, rfl⟩ := h.remove_eq hstep
  obtain ⟨huncleared, hnone⟩ := (h.placed id e he).uncleared (by rw [hphase]; decide)
  have hstreams := streams_advance (h.streams id e he) ⟨rfl, rfl, rfl⟩
    (show CompletionPhase.copied.rank ≤ CompletionPhase.removed.rank → _ from fun hin => absurd hin (by decide))
  refine h.update he rfl hstreams (Placed.of_phase .removed rfl ?_ ?_ ?_ huncleared)
    (fun j hj => ⟨AList.lookup_erase_ne hj, ?_, rfl, Iff.rfl⟩) ?_ rfl rfl
  · show ((s.running.erase id).lookup id).isSome = true ↔ _
    rw [AList.lookup_erase]
    decide
  · exact ⟨fun _ => by decide, fun _ => rfl⟩
  · exact hnone.trans (if_neg (by decide)).symm
  · show some id = some j ↔ s.moving = some j
    rw [hfree, Option.some.injEq]
    exact ⟨fun heq => absurd heq.symm hj, fun hnone => by cases hnone⟩
  · show e.phase.rank ≤ CompletionPhase.removed.rank
    rw [hphase]
    decide

/-- The copy is in `completed`, and the lock is released. -/
theorem Inv.insert (h : s.Inv) (hstep : s.step (.insert id) = some t) : t.Inv := by
  obtain ⟨e, he, hstep'⟩ := Option.bind_eq_some_iff.mp (show Option.bind _ _ = some t from hstep)
  obtain ⟨u, hu, rfl⟩ := Option.map_eq_some_iff.mp hstep'
  obtain ⟨e₁, e', he₁, hphase, hinsert, rfl⟩ := advance_eq_some hu
  cases hinsert
  rw [he, Option.some.injEq] at he₁
  subst he₁
  have hplaced := h.placed id e he
  have hmoving : s.moving = some id := hplaced.moving.mpr (by rw [hphase]; decide)
  obtain ⟨huncleared, -⟩ := hplaced.uncleared (by rw [hphase]; decide)
  have htaken : e.taken <+: e.buffer := (h.streams id e he).taken (Nat.le_of_eq (by rw [hphase]))
  refine h.update he rfl (streams_advance (h.streams id e he) ⟨rfl, rfl, rfl⟩ fun _ => htaken)
    (Placed.of_phase .inserted rfl ?_ ?_ ?_ huncleared) (fun j hj => ⟨rfl, ?_, AList.lookup_insert_ne hj, Iff.rfl⟩) ?_ rfl rfl
  · show (s.running.lookup id).isSome = true ↔ _
    rw [hplaced.running, hphase]
    decide
  · exact ⟨fun hnone => (by cases hnone), fun hrank => absurd hrank.2 (by decide)⟩
  · show (s.completed.insert id e.taken).lookup id = _
    rw [AList.lookup_insert]
    rfl
  · show none = some j ↔ s.moving = some j
    rw [hmoving, Option.some.injEq]
    exact ⟨fun hnone => (by cases hnone), fun heq => absurd heq.symm hj⟩
  · show e.phase.rank ≤ CompletionPhase.inserted.rank
    rw [hphase]
    decide

/-- The session ends after its process was waited for. -/
theorem Inv.vacate (h : s.Inv) (hstep : s.step (.vacate id) = some t) : t.Inv := by
  obtain ⟨e, he, hstep'⟩ := Option.bind_eq_some_iff.mp (show Option.bind _ _ = some t from hstep)
  split at hstep'
  case isFalse => cases hstep'
  case isTrue =>
    cases hstep'
    have hstreams := h.streams id e he
    exact h.update he rfl ⟨hstreams.outputs, hstreams.own, hstreams.taken⟩
      ((h.placed id e he).of_rank ⟨rfl, Iff.rfl, rfl, Iff.rfl⟩ Iff.rfl Iff.rfl fun _ => rfl)
      (fun j _ => ⟨rfl, Iff.rfl, rfl, Iff.rfl⟩) (Nat.le_refl _) rfl rfl

theorem reads_exit {code : Option ℤ}
    (h : (if e.exit = none then some { e with exit := some code } else none) = some e') : Execution.Reads [] e e' := by
  split at h
  case isTrue =>
    cases h
    exact ⟨fun hs => ⟨hs.outputs, hs.own, hs.taken⟩, (List.append_nil _).symm, rfl, rfl⟩
  case isFalse => cases h

/-! ## Calls -/

/-- Only what has completed can be cleared. -/
theorem Inv.clearExecution (h : s.Inv) (hstep : s.step (.clearExecution id) = some t) : t.Inv := by
  rw [step, Option.some.injEq] at hstep
  split at hstep
  case h_2 => exact hstep ▸ h
  case h_1 output houtput =>
    subst hstep
    have hsame (j : ℕ) (hj : j ≠ id) :
        s.SameAt { s with completed := s.completed.erase id, cleared := id :: s.cleared } j :=
      ⟨rfl, Iff.rfl, AList.lookup_erase_ne hj, List.mem_cons.trans (or_iff_right hj)⟩
    refine ⟨h.streams, fun j e he => ?_, h.moving, fun j hj => ?_, h.lookups, h.answers⟩
    · by_cases hj : j = id
      · subst hj
        have hplaced := h.placed j e he
        have hcompleted := hplaced.completed
        rw [houtput] at hcompleted
        split at hcompleted
        case isFalse => cases hcompleted
        case isTrue hin =>
          refine ⟨hplaced.running, hplaced.moving, ?_, fun _ => hin.1⟩
          show (s.completed.erase j).lookup j = _
          rw [AList.lookup_erase, if_neg]
          exact fun hcontra => hcontra.2 List.mem_cons_self
      · exact (h.placed j e he).of_sameAt (hsame j hj)
    · have hne : j ≠ id := by
        rintro rfl
        rw [(h.absent j hj).2.1] at houtput
        cases houtput
      obtain ⟨hrunning, hcompleted, hcleared⟩ := h.absent j hj
      have hs := hsame j hne
      exact ⟨hrunning, hs.completed.trans hcompleted, fun hin => hcleared (hs.cleared.mp hin)⟩

theorem Inv.getBufferedOutput (h : s.Inv) (hstep : s.step (.getBufferedOutput id) = some t) : t.Inv := by
  rw [step, Option.some.injEq] at hstep
  subst hstep
  refine h.of_eq rfl rfl rfl rfl rfl (fun l hl hregistered => ?_) h.answers
  rcases List.mem_append.mp hl with hl | hl
  · exact h.lookups l hl hregistered
  · obtain rfl := List.mem_singleton.mp hl
    have hlt : id < s.executions.length := of_decide_eq_true hregistered
    exact ⟨s.executions[id], List.getElem?_eq_getElem hlt, fun hmissed => by cases hmissed⟩

/-- A call returns what it has found. -/
theorem Inv.answer (h : s.Inv) {l : Lookup} {output : Option (List OutputChunk)}
    (houtput : l.registered = true → l.id ∉ s.cleared → output.isSome = true) : (s.answer call l output).Inv := by
  refine h.of_eq rfl rfl rfl rfl rfl (fun l' hl' => h.lookups l' (List.mem_of_mem_eraseIdx hl')) fun a ha => ?_
  rcases List.mem_append.mp ha with ha | ha
  · exact h.answers a ha
  · obtain rfl := List.mem_singleton.mp ha
    exact fun hregistered huncleared => houtput hregistered (of_decide_eq_false huncleared)

/-- An execution that is not in `running` while the lock is free has been moved. -/
theorem Inv.moved (h : s.Inv) (he : s.executions[id]? = some e) (hfree : s.moving = none)
    (hmissed : s.running.lookup id = none) : CompletionPhase.inserted.rank ≤ e.phase.rank := by
  have hplaced := h.placed id e he
  have hrunning := hplaced.running
  rw [hmissed] at hrunning
  have hremoved : ¬ e.phase.rank < CompletionPhase.removed.rank := fun hlt => by cases hrunning.mpr hlt
  by_contra hinserted
  have hmoving := hplaced.moving.mpr ⟨by omega, by omega⟩
  rw [hfree] at hmoving
  cases hmoving

/-- A lookup starts with the running executions. -/
theorem Inv.lookRunning (h : s.Inv) (hstep : s.step (.lookRunning call) = some t) : t.Inv := by
  obtain ⟨l, hl, hstep'⟩ := Option.bind_eq_some_iff.mp (show Option.bind _ _ = some t from hstep)
  have hmem := List.mem_of_getElem? hl
  split at hstep'
  case isFalse => cases hstep'
  case isTrue hfree =>
    split at hstep'
    case h_1 =>
      cases hstep'
      refine h.answer fun hregistered _ => ?_
      obtain ⟨e, he, -⟩ := h.lookups l hmem hregistered
      rw [he]
      rfl
    case h_2 hmissed =>
      cases hstep'
      refine h.of_eq rfl rfl rfl rfl rfl (fun l' hl' hregistered => ?_) h.answers
      rcases List.mem_or_eq_of_mem_set hl' with hl' | rfl
      · exact h.lookups l' hl' hregistered
      · obtain ⟨e, he, -⟩ := h.lookups l hmem hregistered
        exact ⟨e, he, fun _ => h.moved he hfree.1 hmissed⟩

/-- It goes on with the completed ones. -/
theorem Inv.lookCompleted (h : s.Inv) (hstep : s.step (.lookCompleted call) = some t) : t.Inv := by
  obtain ⟨l, hl, hstep'⟩ := Option.bind_eq_some_iff.mp (show Option.bind _ _ = some t from hstep)
  split at hstep'
  case isFalse => cases hstep'
  case isTrue hmissed =>
    cases hstep'
    refine h.answer fun hregistered huncleared => ?_
    obtain ⟨e, he, hinserted⟩ := h.lookups l (List.mem_of_getElem? hl) hregistered
    rw [(h.placed l.id e he).completed, if_pos ⟨hinserted hmissed, huncleared⟩]
    rfl

/-- Nothing is different as far as the output is concerned. -/
structure Quiet (s t : Executor) : Prop where
  executions : t.executions = s.executions
  running : t.running = s.running
  completed : t.completed = s.completed
  moving : t.moving = s.moving
  cleared : t.cleared = s.cleared
  lookups : t.lookups = s.lookups
  answers : t.answers = s.answers

/-- The steps of a stop concern no output. -/
theorem Inv.quiet (h : s.Inv) (hquiet : s.Quiet t) : t.Inv :=
  h.of_eq hquiet.executions hquiet.running hquiet.completed hquiet.moving hquiet.cleared
    (hquiet.lookups ▸ h.lookups) (hquiet.answers ▸ h.answers)

theorem quiet_stop {force : Bool} (hstep : s.step (.stop id force) = some t) : s.Quiet t := by
  cases hstep
  exact ⟨rfl, rfl, rfl, rfl, rfl, rfl, rfl⟩

theorem quiet_signal (s : Executor) (id pid call : ℕ) (c : StopCall) (phase : StopPhase) :
    s.Quiet ((s.signal id pid).setStop call c phase) := by
  rw [signal]
  split <;> exact ⟨rfl, rfl, rfl, rfl, rfl, rfl, rfl⟩

theorem quiet_readPid (hstep : s.step (.readPid call) = some t) : s.Quiet t := by
  obtain ⟨c, -, hstep'⟩ := Option.bind_eq_some_iff.mp (show Option.bind _ _ = some t from hstep)
  split at hstep'
  case isFalse => cases hstep'
  case isTrue => split at hstep' <;> (cases hstep'; exact ⟨rfl, rfl, rfl, rfl, rfl, rfl, rfl⟩)

theorem quiet_hangUp {groupGone : Bool} (hstep : s.step (.hangUp call groupGone) = some t) : s.Quiet t := by
  obtain ⟨c, -, hstep'⟩ := Option.bind_eq_some_iff.mp (show Option.bind _ _ = some t from hstep)
  split at hstep'
  case h_1 pid _ =>
    cases hstep'
    split
    · exact ⟨rfl, rfl, rfl, rfl, rfl, rfl, rfl⟩
    · exact quiet_signal s c.id pid call c _
  all_goals cases hstep'

theorem quiet_kill (hstep : s.step (.kill call) = some t) : s.Quiet t := by
  obtain ⟨c, -, hstep'⟩ := Option.bind_eq_some_iff.mp (show Option.bind _ _ = some t from hstep)
  split at hstep'
  case h_1 pid _ =>
    cases hstep'
    exact quiet_signal s c.id pid call c _
  all_goals cases hstep'

theorem quiet_otherStart {n : ℕ} (hstep : s.step (.otherStart pid n) = some t) : s.Quiet t := by
  rw [step] at hstep
  split at hstep
  case isTrue =>
    cases hstep
    exact ⟨rfl, rfl, rfl, rfl, rfl, rfl, rfl⟩
  case isFalse => cases hstep

theorem quiet_otherEnd (hstep : s.step (.otherEnd pid) = some t) : s.Quiet t := by
  rw [step] at hstep
  split at hstep
  case h_1 =>
    cases hstep
    exact ⟨rfl, rfl, rfl, rfl, rfl, rfl, rfl⟩
  all_goals cases hstep

/-- One case for each event. -/
theorem Inv.step (h : s.Inv) {event : ExecutorEvent} (hstep : s.step event = some t) : t.Inv := by
  cases event with
  | start pid pty => exact h.start hstep
  | read id stream bytes timestamp => exact h.inExecution (fun _ _ he => ⟨[], reads_read he⟩) hstep
  | store id stream => exact h.inExecution (fun _ _ he => (reads_store he).elim fun chunk hreads => ⟨[chunk], hreads⟩) hstep
  | emit id stream => exact h.inExecution (fun _ _ he => ⟨[], reads_emit he⟩) hstep
  | eof id stream => exact h.inExecution (fun _ _ he => ⟨[], reads_eof he⟩) hstep
  | wait id => exact h.wait hstep
  | takeFlag id => exact h.takeFlag hstep
  | remove id => exact h.remove hstep
  | copy id => exact h.copy hstep
  | insert id => exact h.insert hstep
  | report id => exact h.report hstep
  | getBufferedOutput id => exact h.getBufferedOutput hstep
  | lookRunning call => exact h.lookRunning hstep
  | lookCompleted call => exact h.lookCompleted hstep
  | clearExecution id => exact h.clearExecution hstep
  | stop id force => exact h.quiet (quiet_stop hstep)
  | readPid call => exact h.quiet (quiet_readPid hstep)
  | hangUp call groupGone => exact h.quiet (quiet_hangUp hstep)
  | kill call => exact h.quiet (quiet_kill hstep)
  | exit id code => exact h.inExecution (fun _ _ he => ⟨[], reads_exit he⟩) hstep
  | vacate id => exact h.vacate hstep
  | otherStart pid n => exact h.quiet (quiet_otherStart hstep)
  | otherEnd pid => exact h.quiet (quiet_otherEnd hstep)

theorem inv_init : Inv {} := by
  refine ⟨fun _ _ h => ?_, fun _ _ h => ?_, fun _ h => ?_, fun _ _ => ⟨rfl, rfl, List.not_mem_nil⟩, ?_, ?_⟩
  · cases h
  · cases h
  · cases h
  · exact fun l hl => absurd hl List.not_mem_nil
  · exact fun a ha => absurd ha List.not_mem_nil

/-! ## What comes after the copy -/

/-- No reader adds a chunk to the buffer after it was copied. -/
def OnTime (id : ℕ) (s : Executor) : ExecutorEvent → Prop
  | .store id' _ => id' = id → ∀ e ∈ s.executions[id]?, e.phase.rank < CompletionPhase.copied.rank
  | _ => True

/-- A chunk is in the buffer and not in the copy. -/
def Late (s : Executor) (id : ℕ) : Prop :=
  ∃ e, s.executions[id]? = some e ∧ CompletionPhase.copied.rank ≤ e.phase.rank ∧ e.taken ≠ e.buffer

/-- Output is late once the copy was taken and is not the buffer. -/
theorem late_iff (he : s.executions[id]? = some e) :
    s.Late id ↔ CompletionPhase.copied.rank ≤ e.phase.rank ∧ e.taken ≠ e.buffer := by
  constructor
  · rintro ⟨e', he', hlate⟩
    rw [he, Option.some.injEq] at he'
    exact he' ▸ hlate
  · exact fun hlate => ⟨e, he, hlate⟩

theorem late_same (hexecutions : t.executions = s.executions) : t.Late id ↔ s.Late id := by
  rw [Late, hexecutions, Late]

variable {j : ℕ}

/-- An execution has changed, and it is late if it was. -/
theorem late_set (he : s.executions[j]? = some e) (hexecutions : t.executions = s.executions.set j e')
    (hlate : CompletionPhase.copied.rank ≤ e'.phase.rank ∧ e'.taken ≠ e'.buffer ↔
      CompletionPhase.copied.rank ≤ e.phase.rank ∧ e.taken ≠ e.buffer) : t.Late id ↔ s.Late id := by
  obtain ⟨hlt, -⟩ := List.getElem?_eq_some_iff.mp he
  by_cases hj : j = id
  · subst hj
    rw [late_iff he, late_iff (show t.executions[j]? = some e' by rw [hexecutions, List.getElem?_set_self hlt]), hlate]
  · rw [Late, hexecutions, List.getElem?_set_ne hj, Late]

theorem late_inExecution
    (hf : ∀ e e', f e = some e' → Execution.Reads [] e e') (hstep : s.inExecution j f = some t) :
    t.Late id ↔ s.Late id := by
  obtain ⟨e, e', he, hfe, rfl⟩ := inExecution_eq_some hstep
  obtain ⟨-, hbuffer, hphase, htaken⟩ := hf e e' hfe
  refine late_set he rfl ?_
  rw [hphase, htaken, hbuffer, List.append_nil]

theorem late_advance
    (hf : ∀ e e', f e = some e' → (CompletionPhase.copied.rank ≤ new.rank ∧ e'.taken ≠ e'.buffer ↔
      CompletionPhase.copied.rank ≤ old.rank ∧ e.taken ≠ e.buffer)) (hstep : s.advance j old new f = some t) :
    t.Late id ↔ s.Late id := by
  obtain ⟨e, e', he, hphase, hfe, rfl⟩ := advance_eq_some hstep
  refine late_set he rfl ?_
  rw [hphase]
  exact hf e e' hfe

/-- A chunk stored before the copy is in it. -/
theorem late_store (h : s.Inv) (hstep : s.step (.store j stream) = some t) :
    t.Late id ↔ s.Late id ∨ ¬ s.OnTime id (.store j stream) := by
  obtain ⟨e, e', he, hfe, rfl⟩ := inExecution_eq_some (show s.inExecution _ _ = some t from hstep)
  obtain ⟨chunk, -, hbuffer, hphase, htaken⟩ := reads_store hfe
  obtain ⟨hlt, -⟩ := List.getElem?_eq_some_iff.mp he
  by_cases hj : j = id
  · subst hj
    have hself : (s.setExecution j e').executions[j]? = some e' := List.getElem?_set_self hlt
    have hontime : s.OnTime j (.store j stream) ↔ e.phase.rank < CompletionPhase.copied.rank := by
      rw [OnTime, he]
      exact ⟨fun hon => hon rfl e rfl, fun hlt _ e₁ he₁ => Option.some.inj he₁ ▸ hlt⟩
    have hlonger (hcopied : CompletionPhase.copied.rank ≤ e.phase.rank) : e.taken ≠ e.buffer ++ [chunk] := by
      intro heq
      have hle := ((h.streams j e he).taken hcopied).length_le
      rw [heq, List.length_append, List.length_singleton] at hle
      omega
    rw [late_iff hself, late_iff he, hontime, hphase, htaken, hbuffer, not_lt]
    constructor
    · exact fun hlate => .inr hlate.1
    · rintro (hlate | hcopied)
      · exact ⟨hlate.1, hlonger hlate.1⟩
      · exact ⟨hcopied, hlonger hcopied⟩
  · have hontime : s.OnTime id (.store j stream) := fun heq => absurd heq hj
    have hsame : (s.setExecution j e').Late id ↔ s.Late id := by
      show (∃ e₁, (s.executions.set j e')[id]? = some e₁ ∧ _) ↔ _
      rw [List.getElem?_set_ne hj, Late]
    rw [hsame]
    exact ⟨.inl, fun hlate => hlate.resolve_right fun hnot => hnot hontime⟩

theorem late_start {pty : Bool} (hstep : s.step (.start pid pty) = some t) : t.Late id ↔ s.Late id := by
  rw [step] at hstep
  split at hstep
  case isFalse => cases hstep
  case isTrue =>
    cases hstep
    constructor
    · rintro ⟨e, he, hcopied, hlate⟩
      rcases of_getElem?_concat he with he | ⟨-, rfl⟩
      · exact ⟨e, he, hcopied, hlate⟩
      · exact absurd hcopied (Nat.not_succ_le_zero 3)
    · rintro ⟨e, he, hlate⟩
      obtain ⟨hlt, -⟩ := List.getElem?_eq_some_iff.mp he
      exact ⟨e, (List.getElem?_append_left hlt).trans he, hlate⟩

theorem late_remove (h : s.Inv) (hstep : s.step (.remove j) = some t) : t.Late id ↔ s.Late id := by
  obtain ⟨-, e, he, hphase, rfl⟩ := h.remove_eq hstep
  have hearly (hlate : CompletionPhase.copied.rank ≤ CompletionPhase.removed.rank) : False := absurd hlate (by decide)
  refine late_set he rfl ⟨fun hlate => (hearly hlate.1).elim, fun hlate => absurd hlate.1 ?_⟩
  rw [hphase]
  decide

/-- Only a chunk that is stored after the copy is late. -/
theorem late_step (h : s.Inv) {event : ExecutorEvent} (hstep : s.step event = some t) :
    t.Late id ↔ s.Late id ∨ ¬ s.OnTime id event := by
  by_cases hstore : ∃ j stream, event = .store j stream
  · obtain ⟨j, stream, rfl⟩ := hstore
    exact late_store h hstep
  -- no other event stores a chunk, and each of them is on time
  suffices hsame : t.Late id ↔ s.Late id by
    have hontime : s.OnTime id event := by
      cases event with
      | store j stream => exact absurd ⟨j, stream, rfl⟩ hstore
      | _ => trivial
    rw [hsame]
    exact ⟨.inl, fun hlate => hlate.resolve_right fun hnot => hnot hontime⟩
  cases event with
  | start pid pty => exact late_start hstep
  | read j stream bytes timestamp => exact late_inExecution (fun _ _ => reads_read) hstep
  | store j stream => exact absurd ⟨j, stream, rfl⟩ hstore
  | emit j stream => exact late_inExecution (fun _ _ => reads_emit) hstep
  | eof j stream => exact late_inExecution (fun _ _ => reads_eof) hstep
  | exit j code => exact late_inExecution (fun _ _ => reads_exit) hstep
  | wait j =>
    refine late_advance (fun e e' he => ?_) hstep
    exact ⟨fun hlate => absurd hlate.1 (by decide), fun hlate => absurd hlate.1 (by decide)⟩
  | takeFlag j =>
    obtain ⟨u, hu, rfl⟩ := Option.map_eq_some_iff.mp (show Option.map _ _ = some t from hstep)
    refine (late_same (s := u) rfl).trans (late_advance (fun e e' he => ?_) hu)
    exact ⟨fun hlate => absurd hlate.1 (by decide), fun hlate => absurd hlate.1 (by decide)⟩
  | remove j => exact late_remove h hstep
  -- before the copy nothing is late
  | copy j =>
    refine late_advance (fun e e' he => ?_) hstep
    cases he
    exact ⟨fun hlate => absurd rfl hlate.2, fun hlate => absurd hlate.1 (by decide)⟩
  | insert j =>
    obtain ⟨e, -, hstep'⟩ := Option.bind_eq_some_iff.mp (show Option.bind _ _ = some t from hstep)
    obtain ⟨u, hu, rfl⟩ := Option.map_eq_some_iff.mp hstep'
    refine (late_same (s := u) rfl).trans (late_advance (fun e e' he => ?_) hu)
    cases he
    exact and_congr_left fun _ => by decide
  | report j =>
    refine late_advance (fun e e' he => ?_) hstep
    cases he
    exact and_congr_left fun _ => by decide
  | vacate j =>
    obtain ⟨e, he, hstep'⟩ := Option.bind_eq_some_iff.mp (show Option.bind _ _ = some t from hstep)
    split at hstep'
    case isFalse => cases hstep'
    case isTrue =>
      cases hstep'
      exact late_set he rfl Iff.rfl
  | getBufferedOutput j =>
    cases hstep
    exact late_same rfl
  | lookRunning call =>
    obtain ⟨l, -, hstep'⟩ := Option.bind_eq_some_iff.mp (show Option.bind _ _ = some t from hstep)
    split at hstep'
    case isFalse => cases hstep'
    case isTrue =>
      split at hstep'
      all_goals cases hstep'; exact late_same rfl
  | lookCompleted call =>
    obtain ⟨l, -, hstep'⟩ := Option.bind_eq_some_iff.mp (show Option.bind _ _ = some t from hstep)
    split at hstep'
    case isFalse => cases hstep'
    case isTrue =>
      cases hstep'
      exact late_same rfl
  | clearExecution j =>
    rw [step, Option.some.injEq] at hstep
    subst hstep
    split <;> exact late_same rfl
  | stop j force => exact late_same (quiet_stop hstep).executions
  | readPid call => exact late_same (quiet_readPid hstep).executions
  | hangUp call groupGone => exact late_same (quiet_hangUp hstep).executions
  | kill call => exact late_same (quiet_kill hstep).executions
  | otherStart pid n => exact late_same (quiet_otherStart hstep).executions
  | otherEnd pid => exact late_same (quiet_otherEnd hstep).executions

/-- In a run, the chunks that are late are the ones that were stored after the copy. -/
theorem run_late_iff {events : List ExecutorEvent} (hrun : run step {} events = some t) :
    ¬ t.Late id ↔ Along step (OnTime id) {} events := by
  have hrun' := run_iff_along (fun _ _ _ h hstep => Inv.step h hstep)
    (fun _ _ _ h hstep => show ¬ Late _ id ↔ ¬ Late _ id ∧ OnTime id _ _ by rw [late_step h hstep, not_or, not_not])
    inv_init hrun
  rw [hrun', and_iff_right]
  rintro ⟨_, he, _⟩
  cases he

/-- Every lookup finds an execution that has started and has not been cleared. -/
structure Found (s : Executor) : Prop where
  answers : ∀ a ∈ s.answers, a.registered = true → a.cleared = false → a.output.isSome = true
  placed : ∀ id < s.executions.length, s.moving ≠ some id → id ∉ s.cleared →
    (s.running.lookup id).isSome = true ∨ (s.completed.lookup id).isSome = true

/-- A completed execution is found by its id. -/
theorem Inv.found (h : s.Inv) : s.Found := by
  refine ⟨h.answers, fun id hid hmoving hcleared => ?_⟩
  have hplaced := h.placed id _ (List.getElem?_eq_getElem hid)
  by_cases hrunning : (s.executions[id]).phase.rank < CompletionPhase.removed.rank
  · exact .inl (hplaced.running.mpr hrunning)
  by_cases hinserted : CompletionPhase.inserted.rank ≤ (s.executions[id]).phase.rank
  · rw [hplaced.completed, if_pos ⟨hinserted, hcleared⟩]
    exact .inr rfl
  · exact absurd (hplaced.moving.mpr ⟨by omega, by omega⟩) hmoving

/-- What an execution whose threads have ended has in `completed`, and its events. -/
theorem Inv.bufferedOutput_finished (h : s.Inv) (he : s.executions[id]? = some e) (hfinished : e.Finished)
    (hcleared : id ∉ s.cleared) : s.bufferedOutput id = some e.taken ∧ e.taken <+: e.buffer ∧ SameOutput e.buffer e.outputs := by
  obtain ⟨hreaders, hphase⟩ := hfinished
  have hplaced := h.placed id e he
  have hstreams := h.streams id e he
  have hnone : s.running.lookup id = none := by
    rcases hlookup : s.running.lookup id with _ | state
    · rfl
    · have hrank := hplaced.running.mp (by rw [hlookup]; rfl)
      rw [hphase] at hrank
      exact absurd hrank (by decide)
  refine ⟨?_, hstreams.taken (by rw [hphase]; decide), fun stream => ?_⟩
  · rw [bufferedOutput, hnone]
    show s.completed.lookup id = some e.taken
    rw [hplaced.completed, if_pos ⟨by rw [hphase]; decide, hcleared⟩]
  · rw [hstreams.outputs, hreaders, ReaderPhase.pending, List.append_nil]

/-- A prefix with the same output is everything. -/
theorem eq_of_sameOutput {output buffer : List OutputChunk} (hpre : output <+: buffer)
    (h : SameOutput output buffer) : output = buffer := by
  obtain ⟨rest, rfl⟩ := hpre
  rcases rest with _ | ⟨c, rest⟩
  · exact (List.append_nil _).symm
  · have hstream := congrArg List.length (h c.stream)
    rw [ofStream_append, List.length_append] at hstream
    have hmem : c ∈ ofStream c.stream (c :: rest) := List.mem_filter.mpr ⟨List.mem_cons_self, decide_eq_true rfl⟩
    have hpos := List.length_pos_of_mem hmem
    omega

/-- The execution is found until it is cleared, and at the end the output is that of the events exactly if no reader
has added a chunk after the copy. -/
theorem run_output_iff {events : List ExecutorEvent} (hrun : run step {} events = some s) :
    s.Found ∧ ∀ (id : ℕ) (e : Execution), s.executions[id]? = some e → e.Finished → id ∉ s.cleared →
      ((∃ output, s.bufferedOutput id = some output ∧ SameOutput output e.outputs) ↔
        Along step (OnTime id) {} events) := by
  have hinv : s.Inv := run_invariant (fun _ _ _ h hstep => Inv.step h hstep) inv_init hrun
  refine ⟨hinv.found, fun id e he hfinished hcleared => ?_⟩
  obtain ⟨houtput, hpre, hevents⟩ := hinv.bufferedOutput_finished he hfinished hcleared
  have hlate : ¬ s.Late id ↔ e.taken = e.buffer := by
    rw [late_iff he, hfinished.2, and_iff_right (by decide), not_not]
  rw [← run_late_iff hrun, hlate]
  constructor
  · rintro ⟨output, hsome, hsame⟩
    rw [houtput, Option.some.injEq] at hsome
    subst hsome
    exact eq_of_sameOutput hpre fun stream => (hsame stream).trans (hevents stream).symm
  · intro heq
    exact ⟨e.taken, houtput, heq ▸ hevents⟩

instance (id : ℕ) (s : Executor) : (event : ExecutorEvent) → Decidable (s.OnTime id event)
  | .store id' _ => inferInstanceAs (Decidable (id' = id → ∀ e ∈ s.executions[id]?, e.phase.rank < CompletionPhase.copied.rank))
  | .start .. | .read .. | .emit .. | .eof .. | .wait _ | .takeFlag _ | .remove _ | .copy _ | .insert _ | .report _
  | .getBufferedOutput _ | .lookRunning _ | .lookCompleted _ | .clearExecution _ | .stop .. | .readPid _ | .hangUp ..
  | .kill _ | .exit .. | .vacate _ | .otherStart .. | .otherEnd _ => .isTrue trivial

/-- A reader from its first chunk to the end of the stream. -/
def readOnce : List ExecutorEvent := [.read 0 .stdout [104] 7, .store 0 .stdout, .emit 0 .stdout, .eof 0 .stdout]

/-- The completion thread from its start to its end. -/
def complete : List ExecutorEvent := [.wait 0, .takeFlag 0, .remove 0, .copy 0, .insert 0, .report 0]

/-- All threads of the first execution have ended, with an event and this output. -/
def endsWith (output : List OutputChunk) (s : Executor) : Bool :=
  s.bufferedOutput 0 = some output && s.cleared = [] && (s.executions[0]?).any fun e =>
    e.readers .stdout = .finished && e.readers .stderr = .finished && e.phase = .finished &&
      e.outputs = [⟨['h'], .stdout, 7⟩]

theorem finished_of_endsWith {output : List OutputChunk} (h : s.endsWith output = true) :
    s.bufferedOutput 0 = some output ∧ 0 ∉ s.cleared ∧
      ∃ e, s.executions[0]? = some e ∧ e.Finished ∧ e.outputs = [⟨['h'], .stdout, 7⟩] := by
  rw [endsWith, Bool.and_eq_true, Bool.and_eq_true, decide_eq_true_eq, decide_eq_true_eq, Option.any_eq_true] at h
  obtain ⟨⟨houtput, hcleared⟩, e, he, hfinished⟩ := h
  simp only [Bool.and_eq_true, decide_eq_true_eq] at hfinished
  obtain ⟨⟨⟨hstdout, hstderr⟩, hphase⟩, hevents⟩ := hfinished
  refine ⟨houtput, hcleared ▸ List.not_mem_nil, e, he, ⟨fun stream => ?_, hphase⟩, hevents⟩
  cases stream with
  | stdout => exact hstdout
  | stderr => exact hstderr

/-- A process that ends before its output is read: the output has an event, and is not found. -/
theorem run_output_late : ∃ s e, run step {} ([.start 7 true, .exit 0 (some 0)] ++ complete ++ readOnce) = some s ∧
    s.executions[0]? = some e ∧ e.Finished ∧ 0 ∉ s.cleared ∧
      ¬ ∃ output, s.bufferedOutput 0 = some output ∧ SameOutput output e.outputs := by
  obtain ⟨s, hrun, hs⟩ := exists_run_of_any (p := endsWith [])
    (show (run step {} ([.start 7 true, .exit 0 (some 0)] ++ complete ++ readOnce)).any _ = true by decide)
  obtain ⟨hempty, hcleared, e, he, hfinished, hevents⟩ := finished_of_endsWith hs
  refine ⟨s, e, hrun, he, hfinished, hcleared, ?_⟩
  rintro ⟨output, hsome, hsame⟩
  rw [hempty, Option.some.injEq] at hsome
  have hstdout := hsame .stdout
  rw [← hsome, hevents] at hstdout
  cases hstdout

/-- The output is read before the process is waited for. -/
theorem run_output_iff_early : ∃ s e, run step {} ([.start 7 true] ++ readOnce ++ [.exit 0 (some 0)] ++ complete) = some s ∧
    s.Found ∧ s.executions[0]? = some e ∧ e.Finished ∧
      ∃ output, s.bufferedOutput 0 = some output ∧ SameOutput output e.outputs := by
  obtain ⟨s, hrun, hs⟩ := exists_run_of_any (p := endsWith [⟨['h'], .stdout, 7⟩])
    (show (run step {} ([.start 7 true] ++ readOnce ++ [.exit 0 (some 0)] ++ complete)).any _ = true by decide)
  obtain ⟨-, hcleared, e, he, hfinished, -⟩ := finished_of_endsWith hs
  obtain ⟨hfound, hiff⟩ := run_output_iff hrun
  exact ⟨s, e, hrun, hfound, he, hfinished, (hiff 0 e he hfinished hcleared).mpr (by decide)⟩

/-! ## Output events and the buffer -/

/-- At every moment the events of a stream are what the buffer has of it, but for the last chunk, and a lookup finds a
beginning of the buffer. -/
theorem run_events_buffered {events : List ExecutorEvent} (hrun : run step {} events = some s)
    (he : s.executions[id]? = some e) :
    (∀ stream, ofStream stream e.outputs <+: ofStream stream e.buffer ∧
      (ofStream stream e.buffer).length ≤ (ofStream stream e.outputs).length + 1) ∧
    ∀ output, s.bufferedOutput id = some output → output <+: e.buffer := by
  have hinv : s.Inv := run_invariant (fun _ _ _ h hstep => Inv.step h hstep) inv_init hrun
  have hstreams := hinv.streams id e he
  constructor
  · intro stream
    have hpending : (e.readers stream).pending.length ≤ 1 := by
      cases e.readers stream <;> simp [ReaderPhase.pending]
    rw [hstreams.outputs, List.length_append]
    exact ⟨List.prefix_append _ _, by omega⟩
  · intro output houtput
    rw [bufferedOutput] at houtput
    split at houtput
    case h_1 =>
      rw [he] at houtput
      exact Option.some.inj houtput ▸ List.prefix_rfl
    case h_2 =>
      rw [(hinv.placed id e he).completed] at houtput
      split at houtput <;> cases houtput
      case isTrue hin => exact hstreams.taken (Nat.le_of_succ_le hin.1)

/-- A chunk is in the buffer before its event. -/
theorem run_events_buffered_stored : ∃ s e, run step {} (.start 7 true :: readOnce.take 2) = some s ∧
    s.executions[0]? = some e ∧ e.outputs = [] ∧ e.buffer.length = 1 ∧
      (∀ stream, ofStream stream e.outputs <+: ofStream stream e.buffer ∧
        (ofStream stream e.buffer).length ≤ (ofStream stream e.outputs).length + 1) ∧
      ∀ output, s.bufferedOutput 0 = some output → output <+: e.buffer := by
  obtain ⟨s, hrun, hs⟩ := exists_run_of_any
    (p := fun s => (s.executions[0]?).any fun e => e.outputs = [] && e.buffer.length = 1)
    (show (run step {} (.start 7 true :: readOnce.take 2)).any _ = true by decide)
  obtain ⟨e, he, hahead⟩ := (Option.any_eq_true _ _).mp hs
  rw [Bool.and_eq_true, decide_eq_true_eq, decide_eq_true_eq] at hahead
  obtain ⟨hbegins, hbuffered⟩ := run_events_buffered hrun he
  exact ⟨s, e, hrun, he, hahead.1, hahead.2, hbegins, hbuffered⟩

end Executor

end Builderbot.Actions
