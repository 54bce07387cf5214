import Builderbot.Actions.Output
import Builderbot.Lib.Utf8
import Builderbot.Staged.TerminalOutput

/-!
# The text of the output

A reader of `spawn_stream_reader` decodes the bytes of each read on their own, and stores and emits them as a
chunk. `run_decodes_iff` says when the chunks of a stream are its text: exactly when no read ends inside a
character.
-/

namespace Builderbot.Actions

open Lib Text Utf8
open Staged (TerminalOutputProcessor)

/-- The bytes that the reads of a stream gave, in order. -/
def readsOf (id : ℕ) (stream : OutputStream) (events : List ExecutorEvent) : List (List UInt8) :=
  events.filterMap fun
    | .read id' stream' bytes _ => if id' = id ∧ stream' = stream then some bytes else none
    | _ => none

/-- The texts of the chunks of a stream. -/
def texts (stream : OutputStream) (chunks : List OutputChunk) : List (List Char) :=
  (ofStream stream chunks).map OutputChunk.chunk

/-- The chunks of a stream are its text, and have the lines of it. -/
structure Shows (stream : OutputStream) (chunks : List OutputChunk) (text : List Char) : Prop where
  flatten : (texts stream chunks).flatten = text
  lines : ((texts stream chunks).foldl TerminalOutputProcessor.processChunk {}).snapshotLines =
    (({} : TerminalOutputProcessor).processChunk text).snapshotLines

/-- What is read and not yet in the buffer. -/
def ReaderPhase.unstored : ReaderPhase → List (List Char)
  | .read c => [c.chunk]
  | .reading | .stored _ | .finished => []

/-- What a reader has decoded so far. -/
def Execution.decoded (e : Execution) (stream : OutputStream) : List (List Char) :=
  texts stream e.buffer ++ (e.readers stream).unstored

variable {s t : Executor} {id j : ℕ} {e e' : Execution} {stream stream' : OutputStream}

/-- Where the lines end does not depend on where the chunks do. -/
theorem shows_iff {chunks : List OutputChunk} {text : List Char} :
    Shows stream chunks text ↔ (texts stream chunks).flatten = text := by
  refine ⟨Shows.flatten, fun h => ⟨h, ?_⟩⟩
  rw [TerminalOutputProcessor.processChunk, ← h, List.foldl_flatten]
  rfl

theorem texts_append (stream : OutputStream) (a b : List OutputChunk) :
    texts stream (a ++ b) = texts stream a ++ texts stream b := by
  rw [texts, ofStream_append, List.map_append]
  rfl

theorem decoded_congr (hbuffer : e'.buffer = e.buffer)
    (hunstored : (e'.readers stream).unstored = (e.readers stream).unstored) : e'.decoded stream = e.decoded stream := by
  rw [Execution.decoded, hbuffer, hunstored, Execution.decoded]

/-! ## Readers -/

theorem decoded_read {bytes : List UInt8} {timestamp : ℤ} (h : e.read stream bytes timestamp = some e') :
    bytes ≠ [] ∧ e'.decoded stream' = e.decoded stream' ++ if stream = stream' then [fromUtf8Lossy bytes] else [] := by
  rw [Execution.read] at h
  split at h
  case isFalse => cases h
  case isTrue hreading =>
    cases h
    refine ⟨hreading.2.1, ?_⟩
    rw [Execution.decoded, Execution.readers_setReader]
    by_cases hstream : stream = stream'
    · rw [if_pos hstream.symm, if_pos hstream, Execution.decoded, ← hstream, hreading.1, ReaderPhase.unstored,
        ReaderPhase.unstored, List.append_nil]
      rfl
    · rw [if_neg (Ne.symm hstream), if_neg hstream, List.append_nil]
      rfl

/-- What was read is now in the buffer. -/
theorem decoded_store (hs : e.Streams) (h : e.store stream = some e') : e'.decoded stream' = e.decoded stream' := by
  rw [Execution.store] at h
  split at h
  case h_1 chunk hread =>
    cases h
    have hown : chunk.stream = stream := hs.own stream chunk (by rw [hread]; rfl)
    show texts stream' (e.buffer ++ [chunk]) ++ ((e.setReader stream (.stored chunk)).readers stream').unstored =
      texts stream' e.buffer ++ (e.readers stream').unstored
    rw [texts_append, Execution.readers_setReader]
    by_cases hstream : stream' = stream
    · rw [if_pos hstream, hstream, hread, texts, texts, ofStream_singleton, if_pos hown.symm, ReaderPhase.unstored,
        ReaderPhase.unstored, List.append_nil]
      rfl
    · rw [if_neg hstream, texts, texts, ofStream_singleton, hown, if_neg hstream, List.map_nil, List.append_nil]
  all_goals cases h

theorem decoded_setReader (phase : ReaderPhase) (h : phase.unstored = (e.readers stream).unstored) :
    (e.setReader stream phase).decoded stream' = e.decoded stream' := by
  refine decoded_congr rfl ?_
  rw [Execution.readers_setReader]
  split
  case isTrue hstream => rw [h, hstream]
  case isFalse => rfl

theorem decoded_emit (h : e.emit stream = some e') : e'.decoded stream' = e.decoded stream' := by
  rw [Execution.emit] at h
  split at h
  case h_1 chunk hstored =>
    cases h
    exact decoded_setReader .reading (by rw [hstored]; rfl)
  all_goals cases h

theorem decoded_eof (h : e.eof stream = some e') : e'.decoded stream' = e.decoded stream' := by
  rw [Execution.eof] at h
  split at h
  case isTrue hreading =>
    cases h
    exact decoded_setReader .finished (by rw [hreading]; rfl)
  case isFalse => cases h

/-! ## Runs -/

theorem readsOf_read (id j : ℕ) (stream stream' : OutputStream) (bytes : List UInt8) (timestamp : ℤ) :
    readsOf id stream [.read j stream' bytes timestamp] = if j = id ∧ stream' = stream then [bytes] else [] := by
  rw [readsOf, List.filterMap_cons]
  dsimp only
  by_cases h : j = id ∧ stream' = stream
  · rw [if_pos h, if_pos h]
    rfl
  · rw [if_neg h, if_neg h]
    rfl

theorem readsOf_cons (id : ℕ) (stream : OutputStream) (event : ExecutorEvent) (events : List ExecutorEvent) :
    readsOf id stream (event :: events) = readsOf id stream [event] ++ readsOf id stream events :=
  List.filterMap_append (l := [event])

namespace Executor

/-- What a reader of an execution has decoded, which is nothing before the start. -/
def decodedOf (s : Executor) (id : ℕ) (stream : OutputStream) : List (List Char) :=
  ((s.executions[id]?).map fun e => e.decoded stream).getD []

theorem decodedOf_eq (he : s.executions[id]? = some e) : s.decodedOf id stream = e.decoded stream := by
  rw [decodedOf, he]
  rfl

theorem decodedOf_same (hexecutions : t.executions = s.executions) : t.decodedOf id stream = s.decodedOf id stream := by
  rw [decodedOf, hexecutions, decodedOf]

/-- An execution has changed, and its reader has decoded what is new. -/
theorem decodedOf_set {new : List (List Char)} (he : s.executions[j]? = some e)
    (hexecutions : t.executions = s.executions.set j e') (hdecoded : e'.decoded stream = e.decoded stream ++ new) :
    t.decodedOf id stream = s.decodedOf id stream ++ if j = id then new else [] := by
  obtain ⟨hlt, -⟩ := List.getElem?_eq_some_iff.mp he
  by_cases hj : j = id
  · subst hj
    have hself : t.executions[j]? = some e' := by
      rw [hexecutions, List.getElem?_set_self hlt]
    rw [if_pos rfl, decodedOf_eq hself, decodedOf_eq he, hdecoded]
  · rw [if_neg hj, List.append_nil, decodedOf, hexecutions, List.getElem?_set_ne hj, decodedOf]

theorem decodedOf_kept (he : s.executions[j]? = some e) (hexecutions : t.executions = s.executions.set j e')
    (hdecoded : e'.decoded stream = e.decoded stream) : t.decodedOf id stream = s.decodedOf id stream := by
  have hset : t.decodedOf id stream = s.decodedOf id stream ++ if j = id then [] else [] :=
    decodedOf_set he hexecutions (by rw [hdecoded, List.append_nil])
  rwa [ite_self, List.append_nil] at hset

theorem decodedOf_inExecution {f : Execution → Option Execution}
    (hf : ∀ e e', s.executions[j]? = some e → f e = some e' → e'.decoded stream = e.decoded stream)
    (hstep : s.inExecution j f = some t) : t.decodedOf id stream = s.decodedOf id stream := by
  obtain ⟨e, e', he, hfe, rfl⟩ := inExecution_eq_some hstep
  exact decodedOf_kept he rfl (hf e e' he hfe)

/-- The completion thread reads nothing. -/
theorem decodedOf_advance {old new : CompletionPhase} {f : Execution → Option Execution}
    (hf : ∀ e e', f e = some e' → e'.readers = e.readers ∧ e'.buffer = e.buffer)
    (hstep : s.advance j old new f = some t) : t.decodedOf id stream = s.decodedOf id stream := by
  obtain ⟨e, e', he, -, hfe, rfl⟩ := advance_eq_some hstep
  obtain ⟨hreaders, hbuffer⟩ := hf e e' hfe
  exact decodedOf_kept he rfl (decoded_congr hbuffer (by rw [show _ = e'.readers from rfl, hreaders]))

theorem decodedOf_start {pid : ℕ} {pty : Bool} (hstep : s.step (.start pid pty) = some t) :
    t.decodedOf id stream = s.decodedOf id stream := by
  rw [step] at hstep
  split at hstep
  case isFalse => cases hstep
  case isTrue =>
    cases hstep
    rw [decodedOf, decodedOf]
    rcases Nat.lt_trichotomy id s.executions.length with hlt | rfl | hgt
    · rw [List.getElem?_append_left hlt]
    · rw [List.getElem?_concat_length, List.getElem?_eq_none (Nat.le_refl _)]
      cases stream <;> cases pty <;> rfl
    · rw [List.getElem?_eq_none (by rw [List.length_append, List.length_singleton]; omega),
        List.getElem?_eq_none (Nat.le_of_lt hgt)]

/-- A reader decodes what it reads, and nothing else. -/
theorem decodedOf_step (h : s.Inv) {event : ExecutorEvent} (hstep : s.step event = some t) :
    t.decodedOf id stream = s.decodedOf id stream ++ (readsOf id stream [event]).map fromUtf8Lossy := by
  by_cases hread : ∃ j stream' bytes timestamp, event = .read j stream' bytes timestamp
  · obtain ⟨j, stream', bytes, timestamp, rfl⟩ := hread
    obtain ⟨e, e', he, hfe, rfl⟩ := inExecution_eq_some (show s.inExecution _ _ = some t from hstep)
    rw [decodedOf_set he rfl (decoded_read hfe).2, readsOf_read]
    by_cases hj : j = id
    · by_cases hstream : stream' = stream
      · rw [if_pos hj, if_pos hstream, if_pos ⟨hj, hstream⟩, List.map_singleton]
      · rw [if_pos hj, if_neg hstream, if_neg fun hboth => hstream hboth.2, List.map_nil]
    · rw [if_neg hj, if_neg fun hboth => hj hboth.1, List.map_nil]
  -- every other event leaves the chunks of each reader as they are
  suffices hsame : t.decodedOf id stream = s.decodedOf id stream by
    have hnone : readsOf id stream [event] = [] := by
      cases event with
      | read j stream' bytes timestamp => exact absurd ⟨j, stream', bytes, timestamp, rfl⟩ hread
      | _ => rfl
    rw [hsame, hnone, List.map_nil, List.append_nil]
  cases event with
  | start pid pty => exact decodedOf_start hstep
  | read j stream' bytes timestamp => exact absurd ⟨j, stream', bytes, timestamp, rfl⟩ hread
  | store j stream' => exact decodedOf_inExecution (fun e _ he hfe => decoded_store (h.streams j e he) hfe) hstep
  | emit j stream' => exact decodedOf_inExecution (fun _ _ _ => decoded_emit) hstep
  | eof j stream' => exact decodedOf_inExecution (fun _ _ _ => decoded_eof) hstep
  | exit j code =>
    refine decodedOf_inExecution (fun e e' _ hfe => ?_) hstep
    split at hfe
    case isTrue =>
      cases hfe
      rfl
    case isFalse => cases hfe
  | wait j =>
    refine decodedOf_advance (fun e e' hfe => ?_) hstep
    split at hfe
    case isTrue =>
      cases hfe
      exact ⟨rfl, rfl⟩
    case isFalse => cases hfe
  | takeFlag j =>
    obtain ⟨u, hu, rfl⟩ := Option.map_eq_some_iff.mp (show Option.map _ _ = some t from hstep)
    refine (decodedOf_same (s := u) rfl).trans (decodedOf_advance (fun e e' hfe => ?_) hu)
    cases hfe
    exact ⟨rfl, rfl⟩
  | remove j =>
    obtain ⟨-, e, he, -, rfl⟩ := h.remove_eq hstep
    exact decodedOf_kept he rfl rfl
  | copy | report =>
    refine decodedOf_advance (fun e e' hfe => ?_) hstep
    cases hfe
    exact ⟨rfl, rfl⟩
  | insert j =>
    obtain ⟨e, -, hstep'⟩ := Option.bind_eq_some_iff.mp (show Option.bind _ _ = some t from hstep)
    obtain ⟨u, hu, rfl⟩ := Option.map_eq_some_iff.mp hstep'
    refine (decodedOf_same (s := u) rfl).trans (decodedOf_advance (fun e e' hfe => ?_) hu)
    cases hfe
    exact ⟨rfl, rfl⟩
  | vacate j =>
    obtain ⟨e, he, hstep'⟩ := Option.bind_eq_some_iff.mp (show Option.bind _ _ = some t from hstep)
    split at hstep'
    case isFalse => cases hstep'
    case isTrue =>
      cases hstep'
      exact decodedOf_kept he rfl rfl
  | getBufferedOutput j =>
    cases hstep
    exact decodedOf_same rfl
  | lookRunning call =>
    obtain ⟨l, -, hstep'⟩ := Option.bind_eq_some_iff.mp (show Option.bind _ _ = some t from hstep)
    split at hstep'
    case isFalse => cases hstep'
    case isTrue => split at hstep' <;> (cases hstep'; exact decodedOf_same rfl)
  | lookCompleted call =>
    obtain ⟨l, -, hstep'⟩ := Option.bind_eq_some_iff.mp (show Option.bind _ _ = some t from hstep)
    split at hstep'
    case isFalse => cases hstep'
    case isTrue =>
      cases hstep'
      exact decodedOf_same rfl
  | clearExecution j =>
    rw [step, Option.some.injEq] at hstep
    subst hstep
    split <;> exact decodedOf_same rfl
  | stop j force => exact decodedOf_same (quiet_stop hstep).executions
  | readPid call => exact decodedOf_same (quiet_readPid hstep).executions
  | hangUp call groupGone => exact decodedOf_same (quiet_hangUp hstep).executions
  | kill call => exact decodedOf_same (quiet_kill hstep).executions
  | otherStart pid n => exact decodedOf_same (quiet_otherStart hstep).executions
  | otherEnd pid => exact decodedOf_same (quiet_otherEnd hstep).executions

theorem readsOf_ne_nil {event : ExecutorEvent} (hstep : s.step event = some t) :
    ∀ bytes ∈ readsOf id stream [event], bytes ≠ [] := by
  intro bytes hbytes
  cases event with
  | read j stream' bytes' timestamp =>
    obtain ⟨e, e', -, hfe, -⟩ := inExecution_eq_some (show s.inExecution _ _ = some t from hstep)
    rw [readsOf_read] at hbytes
    split at hbytes
    case isTrue =>
      rw [List.mem_singleton.mp hbytes]
      have hread : bytes' ≠ [] ∧ e'.decoded stream = _ := decoded_read hfe
      exact hread.1
    case isFalse => cases hbytes
  | _ => cases hbytes

/-- In a run, each read is decoded on its own. -/
theorem run_decodedOf {events : List ExecutorEvent} (h : s.Inv) (hrun : run step s events = some t) :
    t.decodedOf id stream = s.decodedOf id stream ++ (readsOf id stream events).map fromUtf8Lossy ∧
      ∀ bytes ∈ readsOf id stream events, bytes ≠ [] := by
  induction events generalizing s with
  | nil =>
    rw [run_nil, Option.some.injEq] at hrun
    exact hrun ▸ ⟨(List.append_nil _).symm, fun bytes hbytes => absurd hbytes List.not_mem_nil⟩
  | cons event events ih =>
    obtain ⟨u, hu, hrest⟩ := run_cons_eq_some.mp hrun
    obtain ⟨hdecoded, hreads⟩ := ih (h.step hu) hrest
    rw [readsOf_cons]
    refine ⟨?_, fun bytes hbytes => ?_⟩
    · rw [hdecoded, decodedOf_step h hu, List.map_append, List.append_assoc]
    · rcases List.mem_append.mp hbytes with hbytes | hbytes
      · exact readsOf_ne_nil hu bytes hbytes
      · exact hreads bytes hbytes

/-- Before the next read, the events have what the buffer has. -/
theorem Inv.texts_eq (h : s.Inv) (he : s.executions[id]? = some e)
    (hreader : e.readers stream = .reading ∨ e.readers stream = .finished) :
    texts stream e.buffer = s.decodedOf id stream ∧ texts stream e.outputs = s.decodedOf id stream := by
  have hquiet : (e.readers stream).unstored = [] ∧ (e.readers stream).pending = [] := by
    rcases hreader with hreader | hreader <;> rw [hreader] <;> exact ⟨rfl, rfl⟩
  have houtputs : ofStream stream e.buffer = ofStream stream e.outputs := by
    rw [(h.streams id e he).outputs stream, hquiet.2, List.append_nil]
  have hbuffer : texts stream e.buffer = s.decodedOf id stream := by
    rw [decodedOf_eq he, Execution.decoded, hquiet.1, List.append_nil]
  exact ⟨hbuffer, by rw [texts, ← houtputs, ← hbuffer, texts]⟩

/-- The chunks of a stream that has text, stored and emitted, are its text exactly when no read ends inside a
character. -/
theorem run_decodes_iff {events : List ExecutorEvent} (hrun : run step {} events = some s)
    (he : s.executions[id]? = some e) (hreader : e.readers stream = .reading ∨ e.readers stream = .finished)
    {text : List Char} (htext : (readsOf id stream events).flatten = encode text) :
    Shows stream e.buffer text ∧ Shows stream e.outputs text ↔
      ∀ k, ∃ t, ((readsOf id stream events).take k).flatten = encode t := by
  have hinv : s.Inv := run_invariant (fun _ _ _ h hstep => Inv.step h hstep) inv_init hrun
  obtain ⟨hdecoded, hreads⟩ : s.decodedOf id stream = decodedOf {} id stream ++ (readsOf id stream events).map fromUtf8Lossy ∧
      ∀ bytes ∈ readsOf id stream events, bytes ≠ [] := run_decodedOf inv_init hrun
  obtain ⟨hbuffer, houtputs⟩ := hinv.texts_eq he hreader
  rw [shows_iff, shows_iff, hbuffer, houtputs, and_self, hdecoded,
    show decodedOf {} id stream = [] from rfl, List.nil_append]
  exact fromUtf8Lossy_pieces_iff hreads htext

/-- A process whose output is read in these pieces. -/
def readIn (pieces : List (List UInt8)) : List ExecutorEvent :=
  .start 7 true :: pieces.flatMap (fun bytes => [.read 0 .stdout bytes 1, .store 0 .stdout, .emit 0 .stdout]) ++
    [.eof 0 .stdout]

/-- The output has ended with these texts. -/
def endsAs (chunks : List (List Char)) (s : Executor) : Bool :=
  (s.executions[0]?).any fun e => e.readers .stdout = .finished && texts .stdout e.buffer = chunks

theorem finished_of_endsAs {chunks : List (List Char)} (h : s.endsAs chunks = true) :
    ∃ e, s.executions[0]? = some e ∧ e.readers .stdout = .finished ∧ texts .stdout e.buffer = chunks := by
  obtain ⟨e, he, hend⟩ := Option.any_eq_true _ _ |>.mp h
  rw [Bool.and_eq_true, decide_eq_true_eq, decide_eq_true_eq] at hend
  exact ⟨e, he, hend.1, hend.2⟩

/-- The two bytes of `é` in two reads are two replacement characters. -/
theorem run_splits_character : ∃ s e, run step {} (readIn [[0xC3], [0xA9]]) = some s ∧ s.executions[0]? = some e ∧
    e.readers .stdout = .finished ∧ (readsOf 0 .stdout (readIn [[0xC3], [0xA9]])).flatten = encode ['é'] ∧
      ¬ (Shows .stdout e.buffer ['é'] ∧ Shows .stdout e.outputs ['é']) := by
  obtain ⟨s, hrun, hs⟩ := exists_run_of_any
    (show (run step {} (readIn [[0xC3], [0xA9]])).any (endsAs [['\uFFFD'], ['\uFFFD']]) = true by decide)
  obtain ⟨e, he, hreader, hchunks⟩ := finished_of_endsAs hs
  refine ⟨s, e, hrun, he, hreader, by decide, ?_⟩
  rintro ⟨hbuffer, -⟩
  have htext := hbuffer.flatten
  rw [hchunks] at htext
  exact absurd htext (by decide)

/-- The two bytes in one read are the character. -/
theorem run_decodes_iff_whole : ∃ s e, run step {} (readIn [[0xC3, 0xA9]]) = some s ∧ s.executions[0]? = some e ∧
    Shows .stdout e.buffer ['é'] ∧ Shows .stdout e.outputs ['é'] := by
  obtain ⟨s, hrun, hs⟩ := exists_run_of_any
    (show (run step {} (readIn [[0xC3, 0xA9]])).any (endsAs [['é']]) = true by decide)
  obtain ⟨e, he, hreader, -⟩ := finished_of_endsAs hs
  have htext : (readsOf 0 .stdout (readIn [[0xC3, 0xA9]])).flatten = encode ['é'] := by decide
  refine ⟨s, e, hrun, he, (run_decodes_iff hrun he (.inr hreader) htext).mpr fun k => ?_⟩
  cases k with
  | zero => exact ⟨[], rfl⟩
  | succ k =>
    refine ⟨['é'], ?_⟩
    rw [← htext, List.take_of_length_le (Nat.succ_le_succ (Nat.zero_le k))]

end Executor

end Builderbot.Actions
