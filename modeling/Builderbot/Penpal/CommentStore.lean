import Builderbot.Lib.Run
import Builderbot.Lib.Utf8

/-!
# The threads of a sidecar

The comments of a file are kept in a JSON file beside it, the sidecar: `comments.go`, `operations.go` and
`storage.go` of `apps/penpal/internal/comments`. Each operation loads the sidecar, changes it and saves it
while it holds the lock of the store; saving fills in which comment a comment answers. The invariant of the
operations is that a comment answers an earlier comment of its thread, or none.

A string of Go is its bytes. What `generateID` and `time.Now` give comes with the operation.
-/

namespace Builderbot.Penpal.Comments

open Lib

abbrev Bytes := List UInt8

structure Anchor where
  selectedText : Bytes
  before : Bytes
  after : Bytes
  startLine : ℤ
deriving DecidableEq, Repr

structure Comment where
  id : Bytes
  body : Bytes
  createdAt : ℤ
  inReplyTo : Bytes
  workingStartedAt : Option ℤ
deriving DecidableEq, Repr

inductive Status where
  | opened
  | resolved
deriving DecidableEq, Repr

structure Thread where
  id : Bytes
  status : Status
  anchor : Anchor
  comments : List Comment
  createdAt : ℤ
  resolvedAt : Option ℤ
  resolvedBy : Bytes
deriving DecidableEq, Repr

/-- A sidecar that does not exist is loaded as one without threads. -/
structure FileComments where
  threads : List Thread := []
deriving DecidableEq, Repr

/-! ## Saving -/

/-- The loop of `migrateInReplyTo` over the comments behind one with the given id. -/
def migrateFrom (previous : Bytes) : List Comment → List Comment
  | [] => []
  | c :: rest => { c with inReplyTo := if c.inReplyTo = [] then previous else c.inReplyTo } :: migrateFrom c.id rest

/-- `migrateInReplyTo` for the comments of a thread. -/
def migrateComments : List Comment → List Comment
  | [] => []
  | c :: rest => c :: migrateFrom c.id rest

/-- `migrateInReplyTo`. -/
def migrateInReplyTo (fc : FileComments) : FileComments where
  threads := fc.threads.map fun t => { t with comments := migrateComments t.comments }

/-! ## Operations -/

/-- The letters of `generateID`. -/
def alphabet : Bytes := Utf8.encode "0123456789ABCDEFGHIJKLMNOPQRSTUVWXYZabcdefghijklmnopqrstuvwxyz".toList

/-- What `generateID` can give. -/
def IsGenerated (id : Bytes) : Prop := id.length = 8 ∧ ∀ b ∈ id, b ∈ alphabet

instance : DecidablePred IsGenerated := fun _ => inferInstanceAs (Decidable (_ ∧ _))

/-- A call of the store, with the results of `generateID` and `time.Now`. -/
inductive StoreCall where
  | createThread (anchor : Anchor) (comment : Comment) (commentID threadID : Bytes) (now : ℤ)
  | addComment (threadID : Bytes) (comment : Comment) (commentID : Bytes) (now : ℤ)
  | resolveThread (threadID resolvedBy : Bytes) (now : ℤ)
  | reopenThread (threadID : Bytes)
deriving DecidableEq, Repr

/-- The comment that is added to a thread. -/
def Thread.newComment (t : Thread) (comment : Comment) (commentID : Bytes) (now : ℤ) : Comment where
  id := commentID
  body := comment.body
  createdAt := now
  inReplyTo :=
    if comment.inReplyTo = [] then (t.comments.getLast?.map Comment.id).getD [] else comment.inReplyTo
  workingStartedAt := comment.workingStartedAt

namespace FileComments

variable (fc : FileComments)

/-- The thread that the loops find is changed, and the sidecar is saved. -/
def changeThread (threadID : Bytes) (f : Thread → Thread) : Option FileComments :=
  (fc.threads.findIdx? fun t => t.id = threadID).map fun i => migrateInReplyTo ⟨fc.threads.modify i f⟩

/-- The sidecar after a call. A call that does not find its thread leaves it alone. -/
def perform : StoreCall → FileComments
  | .createThread anchor comment commentID threadID now =>
    migrateInReplyTo ⟨fc.threads ++ [{
      id := threadID
      status := .opened
      anchor
      comments := [{ comment with id := commentID, createdAt := now }]
      createdAt := now
      resolvedAt := none
      resolvedBy := [] }]⟩
  | .addComment threadID comment commentID now =>
    (fc.changeThread threadID fun t =>
      { t with comments := t.comments ++ [t.newComment comment commentID now] }).getD fc
  | .resolveThread threadID resolvedBy now =>
    (fc.changeThread threadID fun t => { t with status := .resolved, resolvedAt := some now, resolvedBy }).getD fc
  | .reopenThread threadID =>
    (fc.changeThread threadID fun t => { t with status := .opened, resolvedAt := none, resolvedBy := [] }).getD fc

/-- The ids of comments that are in use, or that a comment names. -/
def names : List Bytes :=
  fc.threads.flatMap fun t => t.comments.flatMap fun c => [c.id, c.inReplyTo]

/-- The id that `generateID` gives for a comment is not in use, and nobody has named it. -/
def Fresh : StoreCall → Prop
  | .createThread _ comment commentID _ _ | .addComment _ comment commentID _ =>
    IsGenerated commentID ∧ commentID ∉ fc.names ∧ commentID ≠ comment.inReplyTo
  | .resolveThread _ _ _ | .reopenThread _ => True

instance : DecidablePred fc.Fresh
  | .createThread _ _ _ _ _ | .addComment _ _ _ _ => inferInstanceAs (Decidable (_ ∧ _ ∧ _))
  | .resolveThread _ _ _ | .reopenThread _ => .isTrue trivial

/-- A call whose ids are fresh. -/
def step (fc : FileComments) (call : StoreCall) : Option FileComments :=
  if fc.Fresh call then some (fc.perform call) else none

/-- A sidecar that was written before comments said which comment they answer, or none at all. -/
def Legacy : Prop :=
  ∀ t ∈ fc.threads, (t.comments.map Comment.id).Nodup ∧ ∀ c ∈ t.comments, c.id ≠ [] ∧ c.inReplyTo = []

end FileComments

/-! ## The invariant -/

/-- The comments have ids of their own, and none answers itself or a later one. -/
structure Grounded (comments : List Comment) : Prop where
  earlier : comments.Pairwise fun a b => a.id ≠ b.id ∧ a.inReplyTo ≠ b.id
  self : ∀ c ∈ comments, c.id ≠ [] ∧ c.inReplyTo ≠ c.id

theorem grounded_cons {c : Comment} {rest : List Comment} :
    Grounded (c :: rest) ↔
      (∀ i ∈ rest.map Comment.id, c.id ≠ i ∧ c.inReplyTo ≠ i) ∧ (c.id ≠ [] ∧ c.inReplyTo ≠ c.id) ∧ Grounded rest := by
  constructor
  · intro h
    obtain ⟨hfirst, hrest⟩ := List.pairwise_cons.mp h.earlier
    obtain ⟨hself, hselves⟩ := List.forall_mem_cons.mp h.self
    refine ⟨?_, hself, hrest, hselves⟩
    intro i hi
    obtain ⟨d, hd, rfl⟩ := List.mem_map.mp hi
    exact hfirst d hd
  · rintro ⟨hfirst, hself, hrest⟩
    exact ⟨List.pairwise_cons.mpr ⟨fun d hd => hfirst d.id (List.mem_map_of_mem hd), hrest.earlier⟩,
      List.forall_mem_cons.mpr ⟨hself, hrest.self⟩⟩

/-- The migration keeps the ids. -/
theorem map_id_migrateFrom (previous : Bytes) (rest : List Comment) :
    (migrateFrom previous rest).map Comment.id = rest.map Comment.id := by
  induction rest generalizing previous with
  | nil => rfl
  | cons c rest ih => rw [migrateFrom, List.map_cons, List.map_cons, ih]

/-- Filling in the comment before keeps the invariant. -/
theorem Grounded.migrateFrom {previous : Bytes} {rest : List Comment} (h : Grounded rest)
    (hprevious : ∀ i ∈ rest.map Comment.id, previous ≠ i) : Grounded (migrateFrom previous rest) := by
  induction rest generalizing previous with
  | nil => exact h
  | cons c rest ih =>
    obtain ⟨hfirst, hself, hrest⟩ := grounded_cons.mp h
    obtain ⟨hne, hothers⟩ := List.forall_mem_cons.mp hprevious
    rw [Comments.migrateFrom, grounded_cons, map_id_migrateFrom]
    refine ⟨fun i hi => ⟨(hfirst i hi).1, ?_⟩, ⟨hself.1, ?_⟩, ih hrest fun i hi => (hfirst i hi).1⟩
    · show (if c.inReplyTo = [] then previous else c.inReplyTo) ≠ i
      split
      · exact hothers i hi
      · exact (hfirst i hi).2
    · show (if c.inReplyTo = [] then previous else c.inReplyTo) ≠ c.id
      split
      · exact hne
      · exact hself.2

/-- Linking each comment to the one before it keeps comments grounded. -/
theorem Grounded.migrateComments {comments : List Comment} (h : Grounded comments) :
    Grounded (migrateComments comments) := by
  cases comments with
  | nil => exact h
  | cons c rest =>
    obtain ⟨hfirst, hself, hrest⟩ := grounded_cons.mp h
    rw [Comments.migrateComments, grounded_cons, map_id_migrateFrom]
    exact ⟨hfirst, hself, hrest.migrateFrom fun i hi => (hfirst i hi).1⟩

/-- A comment whose id is new and that does not answer itself can be added. -/
theorem Grounded.concat {comments : List Comment} {c : Comment} (h : Grounded comments)
    (hnew : ∀ d ∈ comments, d.id ≠ c.id ∧ d.inReplyTo ≠ c.id) (hself : c.id ≠ [] ∧ c.inReplyTo ≠ c.id) :
    Grounded (comments ++ [c]) where
  earlier := by
    refine List.pairwise_append.mpr ⟨h.earlier, List.pairwise_singleton _ _, ?_⟩
    intro d hd e he
    rw [List.mem_singleton.mp he]
    exact hnew d hd
  self := by
    intro d hd
    rcases List.mem_append.mp hd with hd | hd
    · exact h.self d hd
    · rw [List.mem_singleton.mp hd]
      exact hself

namespace FileComments

variable {fc : FileComments}

/-- The comments of every thread answer earlier ones. -/
def Inv (fc : FileComments) : Prop := ∀ t ∈ fc.threads, Grounded t.comments

/-- A legacy file has the invariant. -/
theorem Legacy.inv (h : fc.Legacy) : fc.Inv := by
  intro t ht
  obtain ⟨hnodup, hplain⟩ := h t ht
  refine ⟨?_, fun c hc => ⟨(hplain c hc).1, ?_⟩⟩
  · refine (List.pairwise_map.mp hnodup).imp_of_mem fun {a b} ha hb hne => ⟨hne, ?_⟩
    rw [(hplain a ha).2]
    exact (hplain b hb).1.symm
  · rw [(hplain c hc).2]
    exact (hplain c hc).1.symm

/-- A migrated file has the invariant. -/
theorem inv_migrateInReplyTo {threads : List Thread} (h : ∀ t ∈ threads, Grounded t.comments) :
    (migrateInReplyTo ⟨threads⟩).Inv := by
  intro t ht
  obtain ⟨t', ht', rfl⟩ := List.mem_map.mp ht
  exact (h t' ht').migrateComments

/-- A change of one thread keeps the invariant where it keeps that thread grounded. -/
theorem Inv.changeThread (h : fc.Inv) (threadID : Bytes) {f : Thread → Thread}
    (hf : ∀ t ∈ fc.threads, Grounded (f t).comments) : ((fc.changeThread threadID f).getD fc).Inv := by
  unfold FileComments.changeThread
  cases fc.threads.findIdx? fun t => decide (t.id = threadID) with
  | none => exact h
  | some i =>
    refine inv_migrateInReplyTo fun t ht => ?_
    obtain ⟨j, hj⟩ := List.mem_iff_getElem?.mp ht
    rw [List.getElem?_modify] at hj
    obtain ⟨t', ht', hchange⟩ := Option.map_eq_some_iff.mp hj
    have hmem := List.mem_of_getElem? ht'
    by_cases heq : i = j
    · rw [if_pos heq] at hchange
      exact hchange ▸ hf t' hmem
    · rw [if_neg heq] at hchange
      exact hchange ▸ h t' hmem

/-- An id that no comment has or names. -/
theorem of_notMem_names {id : Bytes} (h : id ∉ fc.names) {t : Thread} (ht : t ∈ fc.threads) {c : Comment}
    (hc : c ∈ t.comments) : c.id ≠ id ∧ c.inReplyTo ≠ id := by
  have hnames : ∀ name ∈ [c.id, c.inReplyTo], name ∈ fc.names := fun name hname =>
    List.mem_flatMap.mpr ⟨t, ht, List.mem_flatMap.mpr ⟨c, hc, hname⟩⟩
  constructor
  · rintro rfl
    exact h (hnames _ List.mem_cons_self)
  · rintro rfl
    exact h (hnames _ (List.mem_cons_of_mem _ List.mem_cons_self))

theorem ne_nil_of_isGenerated {id : Bytes} (h : IsGenerated id) : id ≠ [] := by
  rintro rfl
  exact absurd h.1 (by decide)

/-- Every call with fresh ids keeps the invariant. -/
theorem Inv.perform (h : fc.Inv) {call : StoreCall} (hfresh : fc.Fresh call) : (fc.perform call).Inv := by
  cases call with
  | createThread anchor comment commentID threadID now =>
    obtain ⟨hid, -, hself⟩ := hfresh
    refine inv_migrateInReplyTo fun t ht => ?_
    rcases List.mem_append.mp ht with ht | ht
    · exact h t ht
    · rw [List.mem_singleton.mp ht]
      exact grounded_cons.mpr ⟨fun i hi => (by cases hi), ⟨ne_nil_of_isGenerated hid, Ne.symm hself⟩,
        .nil, fun c hc => (by cases hc)⟩
  | addComment threadID comment commentID now =>
    obtain ⟨hid, hnew, hself⟩ := hfresh
    refine h.changeThread threadID fun t ht => (h t ht).concat (fun d hd => of_notMem_names hnew ht hd) ?_
    refine ⟨ne_nil_of_isGenerated hid, ?_⟩
    show (if comment.inReplyTo = [] then (t.comments.getLast?.map Comment.id).getD [] else comment.inReplyTo) ≠ _
    split
    · rcases hlast : t.comments.getLast? with _ | last
      · exact (ne_nil_of_isGenerated hid).symm
      · exact (of_notMem_names hnew ht (List.mem_of_getLast? hlast)).1
    · exact Ne.symm hself
  | resolveThread threadID resolvedBy now => exact h.changeThread threadID h
  | reopenThread threadID => exact h.changeThread threadID h

/-- A call reads the file, which may migrate it, and performs. -/
theorem Inv.step {call : StoreCall} {fc' : FileComments} (h : fc.Inv) (hstep : fc.step call = some fc') : fc'.Inv := by
  rw [FileComments.step] at hstep
  split at hstep
  case isTrue hfresh => exact Option.some.inj hstep ▸ h.perform hfresh
  case isFalse => cases hstep

/-- In every run the comments of a thread answer earlier ones. -/
theorem run_inv {calls : List StoreCall} {fc' : FileComments} (h : fc.Legacy)
    (hrun : run FileComments.step fc calls = some fc') : fc'.Inv :=
  run_invariant (fun _ _ _ hs hstep => Inv.step hs hstep) h.inv hrun

end FileComments

/-! ## Nothing is lost -/

/-- A comment without what it answers, which saving fills in. -/
def Comment.written (c : Comment) : Comment := { c with inReplyTo := [] }

/-- The thread is where it was, with its comments and perhaps more of them. -/
structure Thread.Extends (t t' : Thread) : Prop where
  id : t'.id = t.id
  anchor : t'.anchor = t.anchor
  createdAt : t'.createdAt = t.createdAt
  comments : t.comments.map Comment.written <+: t'.comments.map Comment.written

/-- Every thread is there, in its place. -/
def FileComments.Extends (fc fc' : FileComments) : Prop :=
  ∀ (i : ℕ) t, fc.threads[i]? = some t → ∃ t', fc'.threads[i]? = some t' ∧ t.Extends t'

theorem FileComments.Extends.refl (fc : FileComments) : fc.Extends fc :=
  fun _ t ht => ⟨t, ht, rfl, rfl, rfl, List.prefix_rfl⟩

/-- Threads only grow, over any number of calls. -/
theorem FileComments.Extends.trans {a b c : FileComments} (hab : a.Extends b) (hbc : b.Extends c) : a.Extends c := by
  intro i t ht
  obtain ⟨t', ht', h⟩ := hab i t ht
  obtain ⟨t'', ht'', h'⟩ := hbc i t' ht'
  exact ⟨t'', ht'', h'.id.trans h.id, h'.anchor.trans h.anchor, h'.createdAt.trans h.createdAt,
    h.comments.trans h'.comments⟩

/-- What the users wrote is not migrated. -/
theorem map_written_migrateComments (comments : List Comment) :
    (migrateComments comments).map Comment.written = comments.map Comment.written := by
  have hfrom (previous : Bytes) (rest : List Comment) :
      (migrateFrom previous rest).map Comment.written = rest.map Comment.written := by
    induction rest generalizing previous with
    | nil => rfl
    | cons c rest ih => exact congrArg (c.written :: ·) (ih c.id)
  cases comments with
  | nil => rfl
  | cons c rest => exact congrArg (c.written :: ·) (hfrom c.id rest)

theorem extends_migrateInReplyTo (fc : FileComments) : fc.Extends (migrateInReplyTo fc) := by
  intro i t ht
  refine ⟨_, (List.getElem?_map ..).trans (congrArg _ ht), rfl, rfl, rfl, ?_⟩
  exact (map_written_migrateComments t.comments).symm ▸ List.prefix_rfl

theorem extends_changeThread (fc : FileComments) (threadID : Bytes) {f : Thread → Thread} (hf : ∀ t : Thread, t.Extends (f t)) :
    fc.Extends ((fc.changeThread threadID f).getD fc) := by
  unfold FileComments.changeThread
  cases fc.threads.findIdx? fun t => decide (t.id = threadID) with
  | none => exact .refl fc
  | some i =>
    refine .trans (fun j t ht => ?_) (extends_migrateInReplyTo _)
    refine ⟨if i = j then f t else t, (List.getElem?_modify ..).trans (congrArg _ ht), ?_⟩
    split
    · exact hf t
    · exact ⟨rfl, rfl, rfl, List.prefix_rfl⟩

/-- No call takes a comment away. -/
theorem extends_perform (fc : FileComments) (call : StoreCall) : fc.Extends (fc.perform call) := by
  cases call with
  | createThread =>
    refine .trans (fun i t ht => ⟨t, ?_, rfl, rfl, rfl, List.prefix_rfl⟩) (extends_migrateInReplyTo _)
    exact (List.getElem?_append_left (List.getElem?_eq_some_iff.mp ht).1).trans ht
  | addComment =>
    refine extends_changeThread fc _ fun t => ⟨rfl, rfl, rfl, ?_⟩
    rw [List.map_append]
    exact List.prefix_append _ _
  | resolveThread | reopenThread => exact extends_changeThread fc _ fun t => ⟨rfl, rfl, rfl, List.prefix_rfl⟩

/-- No sequence of calls loses a thread or a comment, moves one, or changes what was written. -/
theorem calls_keep_comments (fc : FileComments) (calls : List StoreCall) :
    fc.Extends (calls.foldl FileComments.perform fc) := by
  induction calls generalizing fc with
  | nil => exact .refl fc
  | cons call calls ih => exact (extends_perform fc call).trans (ih _)

end Builderbot.Penpal.Comments
