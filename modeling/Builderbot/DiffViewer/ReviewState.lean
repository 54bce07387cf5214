import Builderbot.DiffViewer.CommentAutosave
import Builderbot.Git.Types

/-!
# The state of a review

`createReviewState` of `packages/diff-viewer/src/lib/state/reviewState.svelte.ts` over the tables of the backend
(`apps/staged/src-tauri/src/store/reviews.rs`).

The backend processes the requests in the order in which they are issued, and nobody else writes to the tables. A
request is therefore processed when it is issued, and what is on the way is its response, which may come at any time
later. The calls in progress are those responses, and the functions that go on after an await. Deletion times are not
part of the model: the frontend and the backend take them from their own clocks.
-/

namespace Builderbot.DiffViewer

open Git (Text)

/-! ## The backend -/

/-- A row of `comments`. -/
structure CommentRow where
  review : ℕ
  comment : Comment
  deleted : Bool
deriving DecidableEq, Repr

/-- A review with its children, as the backend returns it. -/
structure Review where
  id : ℕ
  comments : List Comment
  reviewed : List Text
  referenceFiles : List Text
deriving DecidableEq, Repr

structure ReviewBackend where
  reviews : List ℕ := []
  /-- The latest review of the branch, commit and scope. -/
  latest : Option ℕ := none
  /-- The id of the next review. -/
  nextReview : ℕ := 0
  rows : List CommentRow := []
  reviewedFiles : List (ℕ × Text) := []
  referenceFiles : List (ℕ × Text) := []
deriving DecidableEq, Repr

namespace ReviewBackend

variable (b : ReviewBackend)

def commentsOf (review : ℕ) (deleted : Bool) : List Comment :=
  (b.rows.filter fun row => row.review = review ∧ row.deleted = deleted).map (·.comment)

def active (review : ℕ) : List Comment := b.commentsOf review false

/-- `get_deleted_comments`. -/
def getDeletedComments (review : ℕ) : List Comment := b.commentsOf review true

def reviewed (review : ℕ) : List Text := (b.reviewedFiles.filter fun file => file.1 = review).map (·.2)

/-- A review with what `load_review_children` adds. -/
def load (review : ℕ) : Review :=
  ⟨review, b.active review, b.reviewed review,
    (b.referenceFiles.filter fun file => file.1 = review).map (·.2)⟩

def findReview : Option Review := b.latest.map b.load

def getReview (id : ℕ) : Option Review := if id ∈ b.reviews then some (b.load id) else none

def ensureReview : Review × ReviewBackend :=
  match b.latest with
  | some id => (b.load id, b)
  | none =>
    (⟨b.nextReview, [], [], []⟩,
      { b with reviews := b.nextReview :: b.reviews, latest := some b.nextReview, nextReview := b.nextReview + 1 })

def addComment (review : ℕ) (comment : Comment) : ReviewBackend := { b with rows := b.rows ++ [⟨review, comment, false⟩] }

/-- `UPDATE comments SET ... WHERE ...`. -/
def updateRows (p : CommentRow → Bool) (f : CommentRow → CommentRow) : ReviewBackend :=
  { b with rows := b.rows.map fun row => if p row then f row else row }

def updateComment (id : ℕ) (content : JsString) : ReviewBackend :=
  b.updateRows (fun row => row.comment.id = id) fun row =>
    { row with comment := { row.comment with content, githubCommentStale := row.comment.githubCommentId.isSome } }

/-- `UPDATE comments SET deleted_at = ... WHERE ...` on the rows that do not have it so already. -/
def setDeleted (deleted : Bool) (p : CommentRow → Bool) : ReviewBackend :=
  b.updateRows (fun row => p row && row.deleted != deleted) fun row => { row with deleted }

def deleteComment (id : ℕ) : ReviewBackend := b.setDeleted true fun row => row.comment.id = id

def restoreComment (id : ℕ) : ReviewBackend := b.setDeleted false fun row => row.comment.id = id

def deleteAllComments (review : ℕ) : ReviewBackend := b.setDeleted true fun row => row.review = review

/-- `INSERT OR IGNORE`. -/
def markReviewed (review : ℕ) (path : Text) : ReviewBackend :=
  if (review, path) ∈ b.reviewedFiles then b else { b with reviewedFiles := b.reviewedFiles ++ [(review, path)] }

def unmarkReviewed (review : ℕ) (path : Text) : ReviewBackend :=
  { b with reviewedFiles := b.reviewedFiles.filter fun file => file ≠ (review, path) }

def addReferenceFile (review : ℕ) (path : Text) : ReviewBackend :=
  if (review, path) ∈ b.referenceFiles then b else { b with referenceFiles := b.referenceFiles ++ [(review, path)] }

/-- The review of a comment. -/
def reviewOf (id : ℕ) : List ℕ := (b.rows.filter fun row => row.comment.id = id).map (·.review)

end ReviewBackend

/-! ## The frontend -/

/-- The actions that create the review. -/
inductive EnsuringAction where
  | addComment (content : JsString)
  | markReviewed (path : Text)
  | addReferenceFile (path : Text)
deriving DecidableEq, Repr

inductive ReviewCall where
  /-- The response to `getReview` or `findReview`. -/
  | existing (review : Option Review)
  /-- The response to `ensureReview`. -/
  | ensure (review : Review) (action : EnsuringAction)
  /-- `ensureReviewExists` has returned. -/
  | ensured (id : ℕ) (action : EnsuringAction)
  /-- The response to `addComment`. -/
  | added (comment : Comment)
  /-- The response to `getDeletedComments`. -/
  | deletedComments (id : ℕ) (comments : List Comment)
  /-- The response to `getFileAtRef` in `addReferenceFile`. -/
  | fileAtRef (id : ℕ) (path : Text)
  /-- The responses in `loadReferenceFilesFromPaths`. -/
  | referenceFiles (paths : List Text)
  /-- A response that nothing is done with. -/
  | acknowledged
deriving DecidableEq, Repr

/-- The comment that `addComment` returns. -/
def ReviewCall.adds : ReviewCall → Option Comment
  | .added comment => some comment
  | _ => none

/-- The review of a call that has one already. -/
def ReviewCall.review : ReviewCall → Option ℕ
  | .ensured id _ | .deletedComments id _ | .fileAtRef id _ => some id
  | .existing _ | .ensure .. | .added _ | .referenceFiles _ | .acknowledged => none

structure ReviewState where
  /-- The id of the review. -/
  review : Option ℕ := none
  comments : List Comment := []
  deletedComments : List Comment := []
  reviewedPaths : List Text := []
  /-- The paths of the reference files. -/
  referenceFiles : List Text := []
  calls : List ReviewCall
  backend : ReviewBackend
  /-- The reviews that the mutations went to. -/
  mutated : List ℕ := []
deriving DecidableEq, Repr

namespace ReviewState

variable (s : ReviewState)

/-- `ensureReviewExists`, up to its await. -/
def ensureReviewExists (action : EnsuringAction) : ReviewState :=
  match s.review with
  | some id => { s with calls := s.calls ++ [.ensured id action] }
  | none =>
    { s with
      backend := s.backend.ensureReview.2
      calls := s.calls ++ [.ensure s.backend.ensureReview.1 action] }

/-- What `ensureReviewExists` and `loadExistingReview` do with a review. -/
def receive (review : Review) : ReviewState :=
  { s with
    review := some review.id
    comments := review.comments
    reviewedPaths := review.reviewed
    calls := s.calls ++ (if review.referenceFiles = [] then [] else [.referenceFiles review.referenceFiles])
      ++ [.deletedComments review.id (s.backend.getDeletedComments review.id)] }

def updateComment (id : ℕ) (content : JsString) : ReviewState :=
  { s with
    comments := s.comments.map fun c => if c.id = id then locallyUpdatedComment c content else c
    backend := s.backend.updateComment id content
    calls := s.calls ++ [.acknowledged]
    mutated := s.mutated ++ s.backend.reviewOf id }

def deleteComment (id : ℕ) : ReviewState :=
  { s with
    comments := s.comments.filter fun c => c.id ≠ id
    deletedComments := (s.comments.find? fun c => c.id = id).toList ++ s.deletedComments
    backend := s.backend.deleteComment id
    calls := s.calls ++ [.acknowledged]
    mutated := s.mutated ++ s.backend.reviewOf id }

def restoreComment (id : ℕ) : ReviewState :=
  { s with
    deletedComments := s.deletedComments.filter fun c => c.id ≠ id
    comments := s.comments ++ (s.deletedComments.find? fun c => c.id = id).toList
    backend := s.backend.restoreComment id
    calls := s.calls ++ [.acknowledged]
    mutated := s.mutated ++ s.backend.reviewOf id }

def deleteAllComments : ReviewState :=
  match s.review with
  | none => s
  | some id =>
    { s with
      deletedComments := s.comments ++ s.deletedComments
      comments := []
      backend := s.backend.deleteAllComments id
      calls := s.calls ++ [.acknowledged]
      mutated := s.mutated ++ [id] }

def unmarkReviewed (path : Text) : ReviewState :=
  match s.review with
  | none => s
  | some id =>
    { s with
      reviewedPaths := s.reviewedPaths.filter fun p => p ≠ path
      backend := s.backend.unmarkReviewed id path
      calls := s.calls ++ [.acknowledged]
      mutated := s.mutated ++ [id] }

def addReferenceFile (path : Text) : ReviewState :=
  if path ∈ s.referenceFiles then s else s.ensureReviewExists (.addReferenceFile path)

/-- What an action does once the review exists. `newId` is the id of a comment that is added. -/
def afterEnsure (id newId : ℕ) : EnsuringAction → Option ReviewState
  | .addComment content =>
    if newId ∈ s.backend.rows.map (·.comment.id) then none
    else some { s with
      backend := s.backend.addComment id { id := newId, content }
      calls := s.calls ++ [.added { id := newId, content }]
      mutated := s.mutated ++ [id] }
  | .markReviewed path => some { s with
      reviewedPaths := if path ∈ s.reviewedPaths then s.reviewedPaths else s.reviewedPaths ++ [path]
      backend := s.backend.markReviewed id path
      calls := s.calls ++ [.acknowledged]
      mutated := s.mutated ++ [id] }
  | .addReferenceFile path => some { s with calls := s.calls ++ [.fileAtRef id path] }

/-- A call goes on. -/
def goOn (newId : ℕ) : ReviewCall → Option ReviewState
  | .existing none => some s
  | .existing (some review) => some (s.receive review)
  | .ensure review action =>
    some { s.receive review with calls := (s.receive review).calls ++ [.ensured review.id action] }
  | .ensured id action => s.afterEnsure id newId action
  | .added comment => some { s with comments := s.comments ++ [comment] }
  | .deletedComments _ comments => some { s with deletedComments := comments }
  | .fileAtRef id path => some { s with
      referenceFiles := s.referenceFiles ++ [path]
      backend := s.backend.addReferenceFile id path
      calls := s.calls ++ [.acknowledged]
      mutated := s.mutated ++ [id] }
  | .referenceFiles paths => some { s with referenceFiles := paths }
  | .acknowledged => some s

end ReviewState

/-- `createReviewState`, with or without the id of a review. -/
def createReviewState (backend : ReviewBackend) (reviewId : Option ℕ) : ReviewState :=
  match reviewId with
  | some id => { calls := [.existing (backend.getReview id)], backend }
  | none => { calls := [.existing backend.findReview], backend }

inductive ReviewEvent where
  | addComment (content : JsString)
  | updateComment (id : ℕ) (content : JsString)
  | deleteComment (id : ℕ)
  | restoreComment (id : ℕ)
  | deleteAllComments
  | markReviewed (path : Text)
  | unmarkReviewed (path : Text)
  | addReferenceFile (path : Text)
  /-- The call at `i` goes on. -/
  | goOn (i newId : ℕ)
deriving DecidableEq, Repr

namespace ReviewState

def step (s : ReviewState) : ReviewEvent → Option ReviewState
  | .addComment content => some (s.ensureReviewExists (.addComment content))
  | .updateComment id content => some (s.updateComment id content)
  | .deleteComment id => some (s.deleteComment id)
  | .restoreComment id => some (s.restoreComment id)
  | .deleteAllComments => some s.deleteAllComments
  | .markReviewed path => some (s.ensureReviewExists (.markReviewed path))
  | .unmarkReviewed path => some (s.unmarkReviewed path)
  | .addReferenceFile path => some (s.addReferenceFile path)
  | .goOn i newId => s.calls[i]?.bind fun call => { s with calls := s.calls.eraseIdx i }.goOn newId call

/-! ## Convergence -/

variable {s t : ReviewState}

/-- All mutations went to the review of the state, and what it shows is what the backend holds. -/
structure Converged (s : ReviewState) : Prop where
  mutated : ∀ id ∈ s.mutated, s.review = some id
  comments : ∀ id ∈ s.review, ∀ c, c ∈ s.comments ↔ c ∈ s.backend.active id
  deletedComments : ∀ id ∈ s.review, ∀ c, c ∈ s.deletedComments ↔ c ∈ s.backend.getDeletedComments id
  reviewedPaths : ∀ id ∈ s.review, ∀ path, path ∈ s.reviewedPaths ↔ path ∈ s.backend.reviewed id

/-- The comments whose `addComment` has not returned. -/
def adding (s : ReviewState) : List Comment := s.calls.filterMap (·.adds)

/-- A review that comes is the one of the state, if it has one, with the reviewed paths of the backend and its
comments, but for those whose `addComment` is on the way. -/
def Current (s : ReviewState) (review : Review) : Prop :=
  (∀ id ∈ s.review, id = review.id) ∧
    (∀ c ∈ review.comments, c ∈ s.backend.active review.id) ∧
    (∀ c ∈ s.backend.active review.id, c ∈ review.comments ∨ c ∈ s.adding) ∧
    (∀ path ∈ review.reviewed, path ∈ s.backend.reviewed review.id) ∧
    ∀ path ∈ s.backend.reviewed review.id, path ∈ review.reviewed

/-- The condition on a response. -/
def Fresh (s : ReviewState) : ReviewCall → Prop
  | .existing review => ∀ r ∈ review, s.Current r
  | .ensure review _ => s.Current review
  | .deletedComments id comments =>
    (∀ c ∈ comments, c ∈ s.backend.getDeletedComments id) ∧ ∀ c ∈ s.backend.getDeletedComments id, c ∈ comments
  | .ensured .. | .added _ | .fileAtRef .. | .referenceFiles _ | .acknowledged => True

/-- The backend has the comment, if at all, in the review of the state, and the frontend knows of it. -/
def Known (s : ReviewState) (id : ℕ) : Prop :=
  (∀ row ∈ s.backend.rows, row.comment.id = id → s.review = some row.review) ∧
    ∀ c ∈ s.adding, c.id ≠ id

/-- The condition on a step. -/
def Timely (s : ReviewState) : ReviewEvent → Prop
  | .updateComment id _ => s.Known id ∧ ∀ row ∈ s.backend.rows, row.comment.id = id → row.deleted = false
  | .deleteComment id => s.Known id
  | .restoreComment id => s.Known id ∧
      ∀ row ∈ s.backend.rows, row.comment.id = id → row.deleted = true → row.comment ∈ s.deletedComments
  | .deleteAllComments => s.review.isSome → s.adding = []
  | .goOn i _ => ∀ call ∈ s.calls[i]?, s.Fresh call
  | .addComment _ | .markReviewed _ | .unmarkReviewed _ | .addReferenceFile _ => True

end ReviewState

/-! ## What the statements change -/

variable {p : CommentRow → Bool}

namespace ReviewBackend

variable {b : ReviewBackend} {review id : ℕ} {deleted : Bool} {c : Comment} {path : Text}

theorem mem_commentsOf :
    c ∈ b.commentsOf review deleted ↔ ∃ row ∈ b.rows, row.review = review ∧ row.deleted = deleted ∧ row.comment = c := by
  simp [commentsOf, and_assoc]

theorem mem_reviewed : path ∈ b.reviewed review ↔ (review, path) ∈ b.reviewedFiles := by
  simp [reviewed]

/-- The rows that are updated have the new mark, and the others keep theirs. -/
theorem mem_commentsOf_setDeleted {mark : Bool} : c ∈ (b.setDeleted mark p).commentsOf review deleted
      ↔ ∃ row ∈ b.rows, row.review = review ∧ (if p row then mark else row.deleted) = deleted ∧ row.comment = c := by
  rw [mem_commentsOf]
  have hrow (row : CommentRow) : (if p row && row.deleted != mark then { row with deleted := mark } else row)
      = { row with deleted := if p row then mark else row.deleted } := by
    cases hp : p row with
    | false => rfl
    | true =>
      by_cases hto : row.deleted = mark
      · simp [← hto]
      · simp [hto]
  constructor
  · rintro ⟨row', hrow', hreview, hdeleted, hc⟩
    obtain ⟨row, hmem, rfl⟩ := List.mem_map.mp hrow'
    rw [hrow] at hreview hdeleted hc
    exact ⟨row, hmem, hreview, hdeleted, hc⟩
  · rintro ⟨row, hmem, hreview, hdeleted, hc⟩
    exact ⟨_, List.mem_map.mpr ⟨row, hmem, hrow row⟩, hreview, hdeleted, hc⟩

/-- The comment with the id, if there is one, has the new mark. -/
theorem mem_commentsOf_setDeleted_id {mark : Bool} :
    c ∈ (b.setDeleted mark fun row => row.comment.id = id).commentsOf review deleted
      ↔ if c.id = id then mark = deleted ∧ (c ∈ b.active review ∨ c ∈ b.getDeletedComments review)
        else c ∈ b.commentsOf review deleted := by
  rw [mem_commentsOf_setDeleted]
  by_cases hid : c.id = id
  · rw [if_pos hid, active, getDeletedComments, mem_commentsOf, mem_commentsOf]
    constructor
    · rintro ⟨row, hmem, hreview, hdeleted, rfl⟩
      rw [if_pos (decide_eq_true hid)] at hdeleted
      refine ⟨hdeleted, ?_⟩
      cases hdel : row.deleted with
      | false => exact .inl ⟨row, hmem, hreview, hdel, rfl⟩
      | true => exact .inr ⟨row, hmem, hreview, hdel, rfl⟩
    · rintro ⟨hto, ⟨row, hmem, hreview, -, rfl⟩ | ⟨row, hmem, hreview, -, rfl⟩⟩
      · exact ⟨row, hmem, hreview, by rw [if_pos (decide_eq_true hid), hto], rfl⟩
      · exact ⟨row, hmem, hreview, by rw [if_pos (decide_eq_true hid), hto], rfl⟩
  · rw [if_neg hid, mem_commentsOf]
    refine exists_congr fun row => and_congr_right fun _ => and_congr_right fun _ => ?_
    constructor
    · rintro ⟨hdeleted, rfl⟩
      rw [if_neg (by simpa using hid)] at hdeleted
      exact ⟨hdeleted, rfl⟩
    · rintro ⟨hdeleted, rfl⟩
      rw [if_neg (by simpa using hid)]
      exact ⟨hdeleted, rfl⟩

/-- All comments of the review are deleted. -/
theorem mem_commentsOf_deleteAllComments :
    c ∈ (b.deleteAllComments review).commentsOf review deleted
      ↔ deleted = true ∧ (c ∈ b.active review ∨ c ∈ b.getDeletedComments review) := by
  rw [deleteAllComments, mem_commentsOf_setDeleted, active, getDeletedComments, mem_commentsOf, mem_commentsOf]
  constructor
  · rintro ⟨row, hmem, hreview, hdeleted, rfl⟩
    rw [if_pos (decide_eq_true hreview)] at hdeleted
    refine ⟨hdeleted.symm, ?_⟩
    cases hdel : row.deleted with
    | false => exact .inl ⟨row, hmem, hreview, hdel, rfl⟩
    | true => exact .inr ⟨row, hmem, hreview, hdel, rfl⟩
  · rintro ⟨rfl, ⟨row, hmem, hreview, -, rfl⟩ | ⟨row, hmem, hreview, -, rfl⟩⟩
    · exact ⟨row, hmem, hreview, by rw [if_pos (decide_eq_true hreview)], rfl⟩
    · exact ⟨row, hmem, hreview, by rw [if_pos (decide_eq_true hreview)], rfl⟩

end ReviewBackend

variable {id : ℕ} {b : ReviewBackend} {comments : List Comment} {call : ReviewCall} {deleted : Bool}

namespace ReviewState

variable {s t : ReviewState} {i : ℕ} {c : Comment}

/-! ## The invariant -/

/-- What the state shows of its review is what the backend holds, but for the responses on the way. -/
structure Inv (s : ReviewState) : Prop where
  ids : (s.backend.rows.map (·.comment.id)).Nodup
  stale : ∀ row ∈ s.backend.rows, row.comment.githubCommentStale = true → row.comment.githubCommentId.isSome = true
  mutated : ∀ id ∈ s.mutated, s.review = some id
  calls : ∀ call ∈ s.calls, ∀ id ∈ call.review, s.review = some id
  comments : ∀ id, s.review = some id → ∀ c, c ∈ s.backend.active id ↔ c ∈ s.comments ∨ c ∈ s.adding
  deletedHeld : ∀ id, s.review = some id → ∀ c ∈ s.deletedComments, c ∈ s.backend.getDeletedComments id
  deletedShown : ∀ id, s.review = some id → (∃ list, .deletedComments id list ∈ s.calls) ∨
    ∀ c ∈ s.backend.getDeletedComments id, c ∈ s.deletedComments
  reviewedPaths : ∀ id, s.review = some id → ∀ path, path ∈ s.reviewedPaths ↔ path ∈ s.backend.reviewed id
  unloaded : s.review = none → s.comments = [] ∧ s.deletedComments = [] ∧ s.adding = []

theorem Inv.converged (h : s.Inv) (hsettled : s.calls = []) : s.Converged := by
  have hadding : s.adding = [] := by
    rw [adding, hsettled]
    rfl
  refine ⟨h.mutated, fun id hid c => ?_, fun id hid c => ⟨h.deletedHeld id hid c, ?_⟩, fun id hid => h.reviewedPaths id hid⟩
  · rw [h.comments id hid, hadding]
    simp
  · refine (h.deletedShown id hid).resolve_left (fun hpending => ?_) c
    obtain ⟨list, hlist⟩ := hpending
    rw [hsettled] at hlist
    exact absurd hlist List.not_mem_nil

/-- Calls that the invariant does not speak of, and the reference files. -/
theorem Inv.other (h : s.Inv) {calls : List ReviewCall} {mutated : List ℕ} {referenceFiles : List Text}
    {backend : ReviewBackend} (hrows : backend.rows = s.backend.rows)
    (hfiles : backend.reviewedFiles = s.backend.reviewedFiles)
    (hadding : ∀ c, c ∈ calls.filterMap (·.adds) ↔ c ∈ s.adding)
    (hdeleted : ∀ id list, .deletedComments id list ∈ s.calls → .deletedComments id list ∈ calls)
    (hcalls : ∀ call ∈ calls, call ∈ s.calls ∨ ∀ id ∈ call.review, s.review = some id)
    (hmutated : ∀ id ∈ mutated, s.review = some id) :
    Inv { s with calls, mutated, referenceFiles, backend } := by
  have hcommentsOf (review : ℕ) (deleted : Bool) :
      backend.commentsOf review deleted = s.backend.commentsOf review deleted := by
    rw [ReviewBackend.commentsOf, hrows, ← ReviewBackend.commentsOf]
  refine ⟨by rw [hrows]; exact h.ids, by rw [hrows]; exact h.stale, hmutated, fun call hcall => ?_, fun id hid c => ?_,
    fun id hid c hc => ?_, fun id hid => ?_, fun id hid path => ?_, fun hnone => ?_⟩
  · exact (hcalls call hcall).elim (fun hold => h.calls call hold) fun hnew => hnew
  · show c ∈ backend.commentsOf id false ↔ _
    rw [hcommentsOf]
    refine (h.comments id hid c).trans (or_congr_right (hadding c).symm)
  · show c ∈ backend.commentsOf id true
    rw [hcommentsOf]
    exact h.deletedHeld id hid c hc
  · show _ ∨ ∀ c ∈ backend.commentsOf id true, _
    rw [hcommentsOf]
    refine (h.deletedShown id hid).imp_left ?_
    rintro ⟨list, hlist⟩
    exact ⟨list, hdeleted id list hlist⟩
  · show _ ↔ path ∈ backend.reviewed id
    rw [ReviewBackend.mem_reviewed, hfiles, ← ReviewBackend.mem_reviewed]
    exact h.reviewedPaths id hid path
  · obtain ⟨hcomments, hdeletedComments, hnil⟩ := h.unloaded hnone
    refine ⟨hcomments, hdeletedComments, List.eq_nil_iff_forall_not_mem.mpr fun c hc => ?_⟩
    have hold := (hadding c).mp hc
    rw [hnil] at hold
    exact absurd hold List.not_mem_nil

/-- A call that begins. -/
theorem Inv.push (h : s.Inv) {mutated : List ℕ} {referenceFiles : List Text} {backend : ReviewBackend}
    (hadds : call.adds = none) (hcall : ∀ id ∈ call.review, s.review = some id) (hrows : backend.rows = s.backend.rows)
    (hfiles : backend.reviewedFiles = s.backend.reviewedFiles) (hmutated : ∀ id ∈ mutated, s.review = some id) :
    Inv { s with calls := s.calls ++ [call], mutated, referenceFiles, backend } := by
  refine h.other hrows hfiles (fun c => ?_) (fun id list hlist => List.mem_append_left _ hlist) (fun call' hcall' => ?_) hmutated
  · rw [List.filterMap_append, List.mem_append, adding]
    simp [hadds]
  · rcases List.mem_append.mp hcall' with hold | hnew
    · exact .inl hold
    · exact .inr (List.mem_singleton.mp hnew ▸ hcall)

theorem mem_adding_iff (hcall : s.calls[i]? = some call) :
    c ∈ s.adding ↔ call.adds = some c ∨ c ∈ (s.calls.eraseIdx i).filterMap (·.adds) := by
  rw [adding, List.mem_filterMap, List.mem_filterMap]
  constructor
  · rintro ⟨call', hmem, hadds⟩
    rcases (mem_iff_eraseIdx hcall).mp hmem with rfl | hmem
    · exact .inl hadds
    · exact .inr ⟨call', hmem, hadds⟩
  · rintro (hadds | ⟨call', hmem, hadds⟩)
    · exact ⟨call, List.mem_of_getElem? hcall, hadds⟩
    · exact ⟨call', List.mem_of_mem_eraseIdx hmem, hadds⟩

/-- A call that ends without a change. -/
theorem Inv.pop (h : s.Inv) (hcall : s.calls[i]? = some call) (hadds : call.adds = none)
    (hdeleted : ∀ id list, call ≠ .deletedComments id list) : Inv { s with calls := s.calls.eraseIdx i } := by
  refine h.other rfl rfl (fun c => ?_) (fun id list hlist => ?_) (fun call' hcall' => .inl (List.mem_of_mem_eraseIdx hcall'))
    h.mutated
  · rw [mem_adding_iff hcall, hadds]
    simp
  · exact ((mem_iff_eraseIdx hcall).mp hlist).resolve_left fun hsame => hdeleted id list hsame.symm

/-! ## Responses -/

theorem Inv.receive (h : s.Inv) {review : Review} (hcurrent : s.Current review) : (s.receive review).Inv := by
  obtain ⟨hsame, hheld, hshown, hreviewed, hreviewed'⟩ := hcurrent
  have hid {id : ℕ} (hid : s.review = some id) : (s.receive review).review = some id := by
    show some review.id = some id
    rw [hsame id hid]
  have hadding : (s.receive review).adding = s.adding := by
    show List.filterMap _ (s.calls ++ _ ++ _) = _
    rw [List.filterMap_append, List.filterMap_append]
    split <;> simp [ReviewCall.adds, adding]
  have hcall (call : ReviewCall) (hmem : call ∈ (s.receive review).calls) :
      call ∈ s.calls ∨ ∀ id ∈ call.review, id = review.id := by
    rcases List.mem_append.mp hmem with hmem | hmem
    · rcases List.mem_append.mp hmem with hmem | hmem
      · exact .inl hmem
      · refine .inr fun id hcall => ?_
        split at hmem
        · exact absurd hmem List.not_mem_nil
        · rw [List.mem_singleton.mp hmem] at hcall
          cases hcall
    · refine .inr fun id hcall => ?_
      rw [List.mem_singleton.mp hmem] at hcall
      exact (Option.some.inj hcall).symm
  -- the answer brings the review; the calls that it starts belong to it
  refine ⟨h.ids, h.stale, fun id hmem => hid (h.mutated id hmem), fun call hmem id hreview => ?_, fun id hsome c => ?_,
    fun id hsome c hc => ?_, fun id hsome => .inl ?_, fun id hsome path => ?_, fun hnone => by cases hnone⟩
  · rcases hcall call hmem with hold | hnew
    · exact hid (h.calls call hold id hreview)
    · rw [hnew id hreview]
      rfl
  · cases hsome
    rw [hadding]
    refine ⟨hshown c, fun hc => hc.elim (hheld c) fun hadd => ?_⟩
    cases hreview : s.review with
    | none =>
      rw [(h.unloaded hreview).2.2] at hadd
      exact absurd hadd List.not_mem_nil
    | some id =>
      have hc := (h.comments id hreview c).mpr (.inr hadd)
      exact hsame id hreview ▸ hc
  · cases hsome
    cases hreview : s.review with
    | none =>
      have hnil : s.deletedComments = [] := (h.unloaded hreview).2.1
      rw [show (s.receive review).deletedComments = s.deletedComments from rfl, hnil] at hc
      exact absurd hc List.not_mem_nil
    | some id => exact hsame id hreview ▸ h.deletedHeld id hreview c hc
  · cases hsome
    exact ⟨_, List.mem_append_right _ (List.mem_singleton_self _)⟩
  · cases hsome
    exact ⟨hreviewed path, hreviewed' path⟩

theorem Inv.ensureReviewExists (h : s.Inv) (action : EnsuringAction) : (s.ensureReviewExists action).Inv := by
  rw [ReviewState.ensureReviewExists]
  split
  next id hreview => exact h.push rfl (fun id' hid => hreview.trans hid) rfl rfl h.mutated
  next =>
    have hensure : s.backend.ensureReview.2.rows = s.backend.rows ∧
        s.backend.ensureReview.2.reviewedFiles = s.backend.reviewedFiles := by
      rw [ReviewBackend.ensureReview]
      split <;> exact ⟨rfl, rfl⟩
    exact h.push rfl (fun id hid => by cases hid) hensure.1 hensure.2 h.mutated

/-- The response to `addComment`: the comment is no longer on the way. -/
theorem Inv.added (h : s.Inv) {comment : Comment} (hcall : s.calls[i]? = some (.added comment)) :
    Inv { s with calls := s.calls.eraseIdx i, comments := s.comments ++ [comment] } := by
  have hadding (c : Comment) := mem_adding_iff (c := c) hcall
  have hcomment : comment ∈ s.adding := (hadding comment).mpr (.inl rfl)
  refine ⟨h.ids, h.stale, h.mutated, fun call hmem => h.calls call (List.mem_of_mem_eraseIdx hmem), fun id hid c => ?_,
    h.deletedHeld, fun id hid => (h.deletedShown id hid).imp_left ?_, h.reviewedPaths, fun hnone => ?_⟩
  · show _ ↔ c ∈ s.comments ++ [comment] ∨ c ∈ List.filterMap _ (s.calls.eraseIdx i)
    rw [h.comments id hid c, hadding, List.mem_append, List.mem_singleton]
    constructor
    · rintro (hc | hc | hc)
      · exact .inl (.inl hc)
      · exact .inl (.inr (Option.some.inj hc).symm)
      · exact .inr hc
    · rintro ((hc | rfl) | hc)
      · exact .inl hc
      · exact .inr (.inl rfl)
      · exact .inr (.inr hc)
  · rintro ⟨list, hlist⟩
    refine ⟨list, ((mem_iff_eraseIdx hcall).mp hlist).resolve_left fun hsame => ?_⟩
    cases hsame
  · have hnil := (h.unloaded hnone).2.2
    rw [hnil] at hcomment
    exact absurd hcomment List.not_mem_nil

/-- The response to `getDeletedComments`. -/
theorem Inv.deletedComments (h : s.Inv)
    (hcall : s.calls[i]? = some (.deletedComments id comments)) (hfresh : s.Fresh (.deletedComments id comments)) :
    Inv { s with calls := s.calls.eraseIdx i, deletedComments := comments } := by
  have hreview : s.review = some id := h.calls _ (List.mem_of_getElem? hcall) id rfl
  have hsame {id' : ℕ} (hid : s.review = some id') : id' = id := Option.some.inj (hid.symm.trans hreview)
  have hadding (c : Comment) : c ∈ (s.calls.eraseIdx i).filterMap (·.adds) ↔ c ∈ s.adding := by
    rw [mem_adding_iff hcall]
    simp [ReviewCall.adds]
  refine ⟨h.ids, h.stale, h.mutated, fun call hmem => h.calls call (List.mem_of_mem_eraseIdx hmem), fun id' hid c => ?_,
    fun id' hid c hc => ?_, fun id' hid => .inr fun c hc => ?_, h.reviewedPaths, fun hnone => ?_⟩
  · exact (h.comments id' hid c).trans (or_congr_right (hadding c).symm)
  · exact hsame hid ▸ hfresh.1 c hc
  · exact hfresh.2 c (hsame hid ▸ hc)
  · rw [show s.review = none from hnone] at hreview
    cases hreview

/-- An action whose review exists. -/
theorem Inv.afterEnsure (h : s.Inv) {newId : ℕ} (hreview : s.review = some id) {action : EnsuringAction}
    (hstep : s.afterEnsure id newId action = some t) : t.Inv := by
  have hsame {id' : ℕ} (hid : s.review = some id') : id' = id := Option.some.inj (hid.symm.trans hreview)
  have hmutated : ∀ id' ∈ s.mutated ++ [id], s.review = some id' := by
    intro id' hid'
    rcases List.mem_append.mp hid' with hold | hnew
    · exact h.mutated id' hold
    · rw [List.mem_singleton.mp hnew, hreview]
  cases action with
  -- the comment is in the backend at once and on the screen when its call returns
  | addComment content =>
    rw [ReviewState.afterEnsure] at hstep
    split at hstep
    · cases hstep
    next hnew =>
      cases hstep
      have hcommentsOf (review : ℕ) (deleted : Bool) (c : Comment) :
          c ∈ (s.backend.addComment id { id := newId, content }).commentsOf review deleted
            ↔ c ∈ s.backend.commentsOf review deleted ∨
              (id = review ∧ false = deleted ∧ { id := newId, content } = c) := by
        rw [ReviewBackend.mem_commentsOf, ReviewBackend.mem_commentsOf, ReviewBackend.addComment]
        simp only [List.mem_append, List.mem_singleton, or_and_right, exists_or, exists_eq_left]
      refine ⟨?_, fun row hrow => ?_, hmutated, fun call hcall => ?_, fun id' hid c => ?_, fun id' hid c hc => ?_,
        fun id' hid => ?_, h.reviewedPaths, fun hnone => ?_⟩
      · show ((s.backend.rows ++ [_]).map (fun row : CommentRow => row.comment.id)).Nodup
        rw [List.map_append, List.nodup_append']
        refine ⟨h.ids, List.nodup_singleton _, fun id' hold hid' => hnew ?_⟩
        have hsame : id' = newId := List.mem_singleton.mp hid'
        exact hsame ▸ hold
      · rcases List.mem_append.mp hrow with hold | hrow
        · exact h.stale row hold
        · rw [List.mem_singleton.mp hrow]
          intro hstale
          cases hstale
      · rcases List.mem_append.mp hcall with hold | hcall
        · exact h.calls call hold
        · rw [List.mem_singleton.mp hcall]
          intro id' hid'
          cases hid'
      · show c ∈ ReviewBackend.commentsOf _ _ _ ↔ c ∈ s.comments ∨ c ∈ List.filterMap _ (s.calls ++ [_])
        rw [hcommentsOf, List.filterMap_append, List.mem_append]
        have hold := h.comments id' hid c
        rw [ReviewBackend.active] at hold
        rw [hold, or_assoc]
        refine or_congr_right (or_congr_right ?_)
        simp [ReviewCall.adds, hsame hid, eq_comm]
      · exact (hcommentsOf _ _ _).mpr (.inl (h.deletedHeld id' hid c hc))
      · refine (h.deletedShown id' hid).imp ?_ fun hall c hc => hall c ?_
        · rintro ⟨list, hlist⟩
          exact ⟨list, List.mem_append_left _ hlist⟩
        · rcases (hcommentsOf _ _ _).mp hc with hc | ⟨-, hfalse, -⟩
          · exact hc
          · cases hfalse
      · rw [show s.review = none from hnone] at hreview
        cases hreview
  -- marking touches the reviewed files only, on both sides alike
  | markReviewed path =>
    cases hstep
    have hrows : (s.backend.markReviewed id path).rows = s.backend.rows := by
      rw [ReviewBackend.markReviewed]
      split <;> rfl
    have hmarked (file : ℕ × Text) :
        file ∈ (s.backend.markReviewed id path).reviewedFiles ↔ file ∈ s.backend.reviewedFiles ∨ file = (id, path) := by
      rw [ReviewBackend.markReviewed]
      split
      next hmem => exact ⟨.inl, fun hfile => hfile.elim (fun hold => hold) fun hnew => hnew ▸ hmem⟩
      next => simp
    have hpush : Inv { s with
        calls := s.calls ++ [.acknowledged], mutated := s.mutated ++ [id],
        backend := { s.backend.markReviewed id path with reviewedFiles := s.backend.reviewedFiles } } :=
      h.push rfl (fun id' hid => by cases hid) hrows rfl hmutated
    refine ⟨hpush.ids, hpush.stale, hpush.mutated, hpush.calls, hpush.comments, hpush.deletedHeld, hpush.deletedShown,
      fun id' hid path' => ?_, hpush.unloaded⟩
    obtain rfl := hsame hid
    have hold := h.reviewedPaths id' hid
    rw [ReviewBackend.mem_reviewed, hmarked, ← ReviewBackend.mem_reviewed, ← hold path', Prod.mk.injEq]
    show path' ∈ (if path ∈ s.reviewedPaths then s.reviewedPaths else s.reviewedPaths ++ [path]) ↔ _
    split
    next hmem => exact ⟨.inl, fun hpath => hpath.elim (fun hin => hin) fun hnew => hnew.2 ▸ hmem⟩
    next => simp
  | addReferenceFile path =>
    cases hstep
    exact h.push rfl (fun id' hid => Option.some.inj hid ▸ hreview) rfl rfl h.mutated

theorem Inv.goOn (h : s.Inv) {newId : ℕ} (htimely : s.Timely (.goOn i newId)) (hstep : s.step (.goOn i newId) = some t) :
    t.Inv := by
  obtain ⟨call, hcall, hstep⟩ := Option.bind_eq_some_iff.mp hstep
  have hfresh := htimely call hcall
  have hadding (hadds : call.adds = none) (c : Comment) :
      c ∈ (s.calls.eraseIdx i).filterMap (·.adds) ↔ c ∈ s.adding := by
    rw [mem_adding_iff hcall, hadds]
    simp
  -- a review that is current stays so when its response is taken from the calls
  have hcurrent {review : Review} (hadds : call.adds = none) (hcur : s.Current review) :
      Current { s with calls := s.calls.eraseIdx i } review := by
    obtain ⟨hsame, hheld, hshown, hreviewed⟩ := hcur
    exact ⟨hsame, hheld, fun c hc => (hshown c hc).imp_right (hadding hadds c).mpr, hreviewed⟩
  cases call with
  | existing review =>
    have hpop := h.pop hcall rfl fun id list hsame => by cases hsame
    cases review with
    | none =>
      cases hstep
      exact hpop
    | some review =>
      cases hstep
      exact hpop.receive (hcurrent rfl (hfresh review rfl))
  | ensure review action =>
    have hpop := h.pop hcall rfl fun id list hsame => by cases hsame
    cases hstep
    have hreceive := hpop.receive (hcurrent rfl hfresh)
    exact hreceive.push rfl (fun id hid => by cases hid; rfl) rfl rfl hreceive.mutated
  | ensured id action =>
    have hpop := h.pop hcall rfl fun id list hsame => by cases hsame
    exact hpop.afterEnsure (h.calls _ (List.mem_of_getElem? hcall) id rfl) hstep
  | added comment =>
    cases hstep
    exact h.added hcall
  | deletedComments id comments =>
    cases hstep
    exact h.deletedComments hcall hfresh
  | fileAtRef id path =>
    have hpop := h.pop hcall rfl fun id list hsame => by cases hsame
    have hreview := h.calls _ (List.mem_of_getElem? hcall) id rfl
    have hfile : (s.backend.addReferenceFile id path).rows = s.backend.rows ∧
        (s.backend.addReferenceFile id path).reviewedFiles = s.backend.reviewedFiles := by
      rw [ReviewBackend.addReferenceFile]
      split <;> exact ⟨rfl, rfl⟩
    cases hstep
    refine hpop.push rfl (fun id' hid => by cases hid) hfile.1 hfile.2 fun id' hid' => ?_
    rcases List.mem_append.mp hid' with hold | hnew
    · exact h.mutated id' hold
    · rw [List.mem_singleton.mp hnew]
      exact hreview
  | referenceFiles paths =>
    have hpop := h.pop hcall rfl fun id list hsame => by cases hsame
    cases hstep
    exact ⟨hpop.ids, hpop.stale, hpop.mutated, hpop.calls, hpop.comments, hpop.deletedHeld, hpop.deletedShown,
      hpop.reviewedPaths, hpop.unloaded⟩
  | acknowledged =>
    cases hstep
    exact h.pop hcall rfl fun id list hsame => by cases hsame

/-! ## Mutations -/

/-- Comments of one id are one comment. -/
theorem Inv.eq_of_id (h : s.Inv) {review review' : ℕ} {deleted' : Bool} {c c' : Comment}
    (hc : c ∈ s.backend.commentsOf review deleted) (hc' : c' ∈ s.backend.commentsOf review' deleted') (hid : c.id = c'.id) :
    c = c' ∧ deleted = deleted' := by
  obtain ⟨row, hrow, -, hdel, rfl⟩ := ReviewBackend.mem_commentsOf.mp hc
  obtain ⟨row', hrow', -, hdel', rfl⟩ := ReviewBackend.mem_commentsOf.mp hc'
  have hsame := List.inj_on_of_nodup_map h.ids hrow hrow' hid
  subst hsame
  exact ⟨rfl, hdel.symm.trans hdel'⟩

theorem nodup_updateRows {f : CommentRow → CommentRow}
    (hb : (b.rows.map (·.comment.id)).Nodup) (hf : ∀ row, (f row).comment.id = row.comment.id) :
    ((b.updateRows p f).rows.map (·.comment.id)).Nodup := by
  have hids : (b.updateRows p f).rows.map (·.comment.id) = b.rows.map (·.comment.id) := by
    rw [ReviewBackend.updateRows, List.map_map]
    refine List.map_congr_left fun row _ => ?_
    show (if p row then f row else row).comment.id = row.comment.id
    split
    · exact hf row
    · rfl
  exact hids ▸ hb

theorem stale_updateRows {f : CommentRow → CommentRow}
    (hb : ∀ row ∈ b.rows, row.comment.githubCommentStale = true → row.comment.githubCommentId.isSome = true)
    (hf : ∀ row ∈ b.rows, (f row).comment.githubCommentStale = true → (f row).comment.githubCommentId.isSome = true) :
    ∀ row ∈ (b.updateRows p f).rows, row.comment.githubCommentStale = true → row.comment.githubCommentId.isSome = true := by
  intro row' hrow'
  obtain ⟨row, hrow, rfl⟩ := List.mem_map.mp hrow'
  split
  · exact hf row hrow
  · exact hb row hrow

/-- A mutation of the comment with the id goes to the review of the state. -/
theorem Inv.mutated_reviewOf (h : s.Inv) (hknown : s.Known id) :
    ∀ review ∈ s.mutated ++ s.backend.reviewOf id, s.review = some review := by
  intro review hmem
  rcases List.mem_append.mp hmem with hold | hnew
  · exact h.mutated review hold
  · obtain ⟨row, hrow, rfl⟩ := List.mem_map.mp hnew
    obtain ⟨hrow, hid⟩ := List.mem_filter.mp hrow
    exact hknown.1 row hrow (of_decide_eq_true hid)

theorem adding_acknowledged (calls : List ReviewCall) :
    (calls ++ [ReviewCall.acknowledged]).filterMap ReviewCall.adds = calls.filterMap ReviewCall.adds := by
  rw [List.filterMap_append]
  exact List.append_nil _

/-- The calls after a mutation whose response is not waited for. -/
theorem Inv.calls_acknowledged (h : s.Inv) :
    ∀ call ∈ s.calls ++ [.acknowledged], ∀ id ∈ call.review, s.review = some id := by
  intro call hcall
  rcases List.mem_append.mp hcall with hold | hnew
  · exact h.calls call hold
  · rw [List.mem_singleton.mp hnew]
    intro id hid
    cases hid

/-- The comment that is found by its id. -/
theorem mem_toList_find? {c : Comment}
    (hc : c ∈ (comments.find? fun c => c.id = id).toList) : c ∈ comments ∧ c.id = id := by
  rw [Option.mem_toList] at hc
  exact ⟨List.mem_of_find?_eq_some hc, of_decide_eq_true (List.find?_some (p := fun c : Comment => decide (c.id = id)) hc)⟩

/-- It is the only one. -/
theorem mem_toList_find?_of_unique {c : Comment} (hc : c ∈ comments) (hid : c.id = id)
    (hunique : ∀ c' ∈ comments, c'.id = id → c' = c) : c ∈ (comments.find? fun c => c.id = id).toList := by
  obtain ⟨c', hfind⟩ := Option.isSome_iff_exists.mp
    (List.find?_isSome.mpr ⟨c, hc, decide_eq_true hid⟩ : (comments.find? fun c => c.id = id).isSome)
  have hmem : c' ∈ (comments.find? fun c => c.id = id).toList := by
    rw [hfind]
    exact List.mem_singleton_self _
  obtain ⟨hc', hid'⟩ := mem_toList_find? hmem
  rw [hunique c' hc' hid'] at hmem
  exact hmem

theorem Inv.deleteComment (h : s.Inv) (hknown : s.Known id) : (s.deleteComment id).Inv := by
  have hmem (review : ℕ) (deleted : Bool) (c : Comment) :=
    @ReviewBackend.mem_commentsOf_setDeleted_id s.backend review id deleted c true
  refine ⟨?_, ?_, h.mutated_reviewOf hknown, h.calls_acknowledged, fun review hreview c => ?_, fun review hreview c hc => ?_,
    fun review hreview => (h.deletedShown review hreview).imp ?_ fun hall c hc => ?_, h.reviewedPaths, fun hnone => ?_⟩
  · exact nodup_updateRows h.ids fun row => rfl
  · exact stale_updateRows h.stale fun row hrow => h.stale row hrow
  · refine (hmem review false c).trans ?_
    show _ ↔ c ∈ s.comments.filter _ ∨ c ∈ List.filterMap _ (s.calls ++ [_])
    rw [adding_acknowledged, List.mem_filter]
    -- the comment itself, and every other one
    by_cases hid : c.id = id
    · rw [if_pos hid]
      constructor
      · rintro ⟨hfalse, -⟩
        cases hfalse
      · rintro (⟨-, hne⟩ | hadd)
        · exact absurd hid (of_decide_eq_true hne)
        · exact absurd hid (hknown.2 c hadd)
    · rw [if_neg hid]
      refine (h.comments review hreview c).trans (or_congr_left ?_)
      exact ⟨fun hc => ⟨hc, decide_eq_true hid⟩, And.left⟩
  · refine (hmem review true c).mpr ?_
    rcases List.mem_append.mp hc with hc | hc
    · obtain ⟨hc, hid⟩ := mem_toList_find? hc
      rw [if_pos hid]
      exact ⟨rfl, .inl ((h.comments review hreview c).mpr (.inl hc))⟩
    · have hdeleted := h.deletedHeld review hreview c hc
      split
      · exact ⟨rfl, .inr hdeleted⟩
      · exact hdeleted
  · rintro ⟨list, hlist⟩
    exact ⟨list, List.mem_append_left _ hlist⟩
  · have hc' := (hmem review true c).mp hc
    by_cases hid : c.id = id
    · rw [if_pos hid] at hc'
      rcases hc'.2 with hactive | hdeleted
      · have hshown := ((h.comments review hreview c).mp hactive).resolve_right fun hadd => hknown.2 c hadd hid
        refine List.mem_append_left _ (mem_toList_find?_of_unique hshown hid fun c' hmem hid' => ?_)
        exact (h.eq_of_id ((h.comments review hreview c').mpr (.inl hmem)) hactive (hid'.trans hid.symm)).1
      · exact List.mem_append_right _ (hall c hdeleted)
    · rw [if_neg hid] at hc'
      exact List.mem_append_right _ (hall c hc')
  · obtain ⟨hcomments, hdeleted, hadding⟩ := h.unloaded hnone
    refine ⟨?_, ?_, (adding_acknowledged s.calls).trans hadding⟩
    · show s.comments.filter _ = []
      rw [hcomments]
      rfl
    · show (s.comments.find? _).toList ++ s.deletedComments = []
      rw [hcomments, hdeleted]
      rfl

theorem Inv.restoreComment (h : s.Inv) (htimely : s.Timely (.restoreComment id)) : (s.restoreComment id).Inv := by
  obtain ⟨hknown, hshown⟩ := htimely
  have hmem (review : ℕ) (deleted : Bool) (c : Comment) :=
    @ReviewBackend.mem_commentsOf_setDeleted_id s.backend review id deleted c false
  refine ⟨?_, ?_, h.mutated_reviewOf hknown, h.calls_acknowledged, fun review hreview c => ?_, fun review hreview c hc => ?_,
    fun review hreview => (h.deletedShown review hreview).imp ?_ fun hall c hc => ?_, h.reviewedPaths, fun hnone => ?_⟩
  · exact nodup_updateRows h.ids fun row => rfl
  · exact stale_updateRows h.stale fun row hrow => h.stale row hrow
  · refine (hmem review false c).trans ?_
    show _ ↔ c ∈ s.comments ++ _ ∨ c ∈ List.filterMap _ (s.calls ++ [_])
    rw [adding_acknowledged, List.mem_append]
    have hold := h.comments review hreview c
    by_cases hid : c.id = id
    · rw [if_pos hid, hold]
      constructor
      · rintro ⟨-, (hc | hc) | hdeleted⟩
        · exact .inl (.inl hc)
        · exact .inr hc
        · -- the comment is among the deleted ones that are shown
          obtain ⟨row, hrow, -, hdel, rfl⟩ := ReviewBackend.mem_commentsOf.mp hdeleted
          have hc := hshown row hrow hid hdel
          refine .inl (.inr (mem_toList_find?_of_unique hc hid fun c' hc' hid' => ?_))
          exact (h.eq_of_id (h.deletedHeld review hreview c' hc') hdeleted (hid'.trans hid.symm)).1
      -- back: what is shown is active already, or was held as deleted
      · rintro ((hc | hc) | hc)
        · exact ⟨rfl, .inl (.inl hc)⟩
        · exact ⟨rfl, .inr (h.deletedHeld review hreview c (mem_toList_find? hc).1)⟩
        · exact ⟨rfl, .inl (.inr hc)⟩
    · rw [if_neg hid]
      refine hold.trans (or_congr_left ⟨.inl, fun hc => hc.resolve_right fun hfound => ?_⟩)
      exact hid (mem_toList_find? hfound).2
  · obtain ⟨hc, hid⟩ := List.mem_filter.mp hc
    refine (hmem review true c).mpr ?_
    rw [if_neg (of_decide_eq_true hid)]
    exact h.deletedHeld review hreview c hc
  · rintro ⟨list, hlist⟩
    exact ⟨list, List.mem_append_left _ hlist⟩
  · have hc' := (hmem review true c).mp hc
    by_cases hid : c.id = id
    · rw [if_pos hid] at hc'
      cases hc'.1
    · rw [if_neg hid] at hc'
      exact List.mem_filter.mpr ⟨hall c hc', decide_eq_true hid⟩
  · obtain ⟨hcomments, hdeleted, hadding⟩ := h.unloaded hnone
    refine ⟨?_, ?_, (adding_acknowledged s.calls).trans hadding⟩
    · show s.comments ++ (s.deletedComments.find? _).toList = []
      rw [hcomments, hdeleted]
      rfl
    · show s.deletedComments.filter _ = []
      rw [hdeleted]
      rfl

theorem Inv.deleteAllComments (h : s.Inv) (htimely : s.Timely .deleteAllComments) : s.deleteAllComments.Inv := by
  rw [ReviewState.deleteAllComments]
  split
  next => exact h
  next id hreview =>
    have hnone : s.adding = [] := htimely (by rw [hreview]; rfl)
    have hsame {review : ℕ} (hr : s.review = some review) : review = id := Option.some.inj (hr.symm.trans hreview)
    have hmem (deleted : Bool) (c : Comment) :=
      @ReviewBackend.mem_commentsOf_deleteAllComments s.backend id deleted c
    refine ⟨?_, ?_, fun review hmutated => ?_, h.calls_acknowledged, fun review hr c => ?_, fun review hr c hc => ?_,
      fun review hr => (h.deletedShown review hr).imp ?_ fun hall c hc => ?_, h.reviewedPaths, fun hnone => ?_⟩
    · exact nodup_updateRows h.ids fun row => rfl
    · exact stale_updateRows h.stale fun row hrow => h.stale row hrow
    · rcases List.mem_append.mp hmutated with hold | hnew
      · exact h.mutated review hold
      · rw [List.mem_singleton.mp hnew]
        exact hreview
    · obtain rfl := hsame hr
      refine (hmem false c).trans ?_
      show _ ↔ c ∈ [] ∨ c ∈ List.filterMap _ (s.calls ++ [_])
      rw [adding_acknowledged, show List.filterMap _ s.calls = s.adding from rfl, hnone]
      simp
    · obtain rfl := hsame hr
      refine (hmem true c).mpr ⟨rfl, ?_⟩
      rcases List.mem_append.mp hc with hc | hc
      · exact .inl ((h.comments review hr c).mpr (.inl hc))
      · exact .inr (h.deletedHeld review hr c hc)
    · rintro ⟨list, hlist⟩
      exact ⟨list, List.mem_append_left _ hlist⟩
    · obtain rfl := hsame hr
      rcases ((hmem true c).mp hc).2 with hactive | hdeleted
      · have hshown := (h.comments review hr c).mp hactive
        rw [hnone] at hshown
        exact List.mem_append_left _ (hshown.resolve_right List.not_mem_nil)
      · exact List.mem_append_right _ (hall c hdeleted)
    · rw [show s.review = none from hnone] at hreview
      cases hreview

theorem mem_commentsOf_updateComment {review : ℕ} {content : JsString} {c : Comment} :
    c ∈ (b.updateComment id content).commentsOf review deleted ↔ ∃ c' ∈ b.commentsOf review deleted,
      (if c'.id = id then { c' with content, githubCommentStale := c'.githubCommentId.isSome } else c') = c := by
  rw [ReviewBackend.mem_commentsOf]
  constructor
  · rintro ⟨row', hrow', hreview, hdeleted, hc⟩
    obtain ⟨row, hrow, rfl⟩ := List.mem_map.mp hrow'
    by_cases hid : row.comment.id = id
    · rw [if_pos (decide_eq_true hid)] at hreview hdeleted hc
      exact ⟨row.comment, ReviewBackend.mem_commentsOf.mpr ⟨row, hrow, hreview, hdeleted, rfl⟩, by rw [if_pos hid]; exact hc⟩
    · rw [if_neg (by simpa using hid)] at hreview hdeleted hc
      exact ⟨row.comment, ReviewBackend.mem_commentsOf.mpr ⟨row, hrow, hreview, hdeleted, rfl⟩, by rw [if_neg hid]; exact hc⟩
  · rintro ⟨c', hc', hc⟩
    obtain ⟨row, hrow, hreview, hdeleted, rfl⟩ := ReviewBackend.mem_commentsOf.mp hc'
    refine ⟨_, List.mem_map.mpr ⟨row, hrow, rfl⟩, ?_⟩
    by_cases hid : row.comment.id = id
    · rw [if_pos hid] at hc
      rw [if_pos (decide_eq_true hid)]
      exact ⟨hreview, hdeleted, hc⟩
    · rw [if_neg hid] at hc
      rw [if_neg (by simpa using hid)]
      exact ⟨hreview, hdeleted, hc⟩

/-- The frontend marks a comment as the backend does. -/
theorem Inv.locallyUpdatedComment_eq (h : s.Inv) {review : ℕ} {c : Comment}
    (hc : c ∈ s.backend.commentsOf review deleted) (content : JsString) :
    locallyUpdatedComment c content = { c with content, githubCommentStale := c.githubCommentId.isSome } := by
  obtain ⟨row, hrow, -, -, rfl⟩ := ReviewBackend.mem_commentsOf.mp hc
  have hstale := h.stale row hrow
  rw [locallyUpdatedComment]
  cases hmark : row.comment.githubCommentStale with
  | false => rw [Bool.or_false]
  | true => rw [hstale hmark, Bool.or_true]

theorem Inv.updateComment (h : s.Inv) {content : JsString} (htimely : s.Timely (.updateComment id content)) :
    (s.updateComment id content).Inv := by
  obtain ⟨hknown, hactive⟩ := htimely
  -- the comment is not deleted, so no deleted one changes
  have hdeleted (review : ℕ) (c : Comment) :
      c ∈ (s.backend.updateComment id content).commentsOf review true ↔ c ∈ s.backend.commentsOf review true := by
    have hid {c' : Comment} (hc' : c' ∈ s.backend.commentsOf review true) : c'.id ≠ id := by
      obtain ⟨row, hrow, -, hdel, rfl⟩ := ReviewBackend.mem_commentsOf.mp hc'
      intro hid
      rw [hactive row hrow hid] at hdel
      cases hdel
    rw [mem_commentsOf_updateComment]
    constructor
    · rintro ⟨c', hc', rfl⟩
      rw [if_neg (hid hc')]
      exact hc'
    · exact fun hc => ⟨c, hc, if_neg (hid hc)⟩
  refine ⟨?_, ?_, h.mutated_reviewOf hknown, h.calls_acknowledged, fun review hreview c => ?_, fun review hreview c hc => ?_,
    fun review hreview => (h.deletedShown review hreview).imp ?_ fun hall c hc => ?_, h.reviewedPaths, fun hnone => ?_⟩
  · exact nodup_updateRows h.ids fun row => rfl
  · exact stale_updateRows h.stale fun row hrow hmark => hmark
  · refine mem_commentsOf_updateComment.trans ?_
    show _ ↔ c ∈ s.comments.map _ ∨ c ∈ List.filterMap _ (s.calls ++ [_])
    rw [adding_acknowledged, List.mem_map]
    have hold (c' : Comment) := h.comments review hreview c'
    constructor
    · rintro ⟨c', hc', rfl⟩
      rcases (hold c').mp hc' with hshown | hadd
      · refine .inl ⟨c', hshown, ?_⟩
        rw [h.locallyUpdatedComment_eq hc']
      · rw [if_neg (hknown.2 c' hadd)]
        exact .inr hadd
    · rintro (⟨c', hc', rfl⟩ | hadd)
      · have hmem := (hold c').mpr (.inl hc')
        refine ⟨c', hmem, ?_⟩
        rw [h.locallyUpdatedComment_eq hmem]
      · exact ⟨c, (hold c).mpr (.inr hadd), if_neg (hknown.2 c hadd)⟩
  · exact (hdeleted review c).mpr (h.deletedHeld review hreview c hc)
  · rintro ⟨list, hlist⟩
    exact ⟨list, List.mem_append_left _ hlist⟩
  · exact hall c ((hdeleted review c).mp hc)
  · obtain ⟨hcomments, hdeletedComments, hadding⟩ := h.unloaded hnone
    refine ⟨?_, hdeletedComments, (adding_acknowledged s.calls).trans hadding⟩
    show s.comments.map _ = []
    rw [hcomments]
    rfl

theorem Inv.unmarkReviewed (h : s.Inv) (path : Text) : (s.unmarkReviewed path).Inv := by
  rw [ReviewState.unmarkReviewed]
  split
  next => exact h
  next id hreview =>
    have hpush : Inv { s with
        calls := s.calls ++ [.acknowledged], mutated := s.mutated ++ [id],
        backend := { s.backend.unmarkReviewed id path with reviewedFiles := s.backend.reviewedFiles } } := by
      refine h.push rfl (fun id' hid => by cases hid) rfl rfl fun id' hid => ?_
      rcases List.mem_append.mp hid with hold | hnew
      · exact h.mutated id' hold
      · rw [List.mem_singleton.mp hnew]
        exact hreview
    refine ⟨hpush.ids, hpush.stale, hpush.mutated, hpush.calls, hpush.comments, hpush.deletedHeld, hpush.deletedShown,
      fun id' hid path' => ?_, hpush.unloaded⟩
    obtain rfl : id' = id := Option.some.inj ((show s.review = some id' from hid).symm.trans hreview)
    have hold := h.reviewedPaths id' hreview path'
    rw [ReviewBackend.mem_reviewed] at hold ⊢
    show path' ∈ s.reviewedPaths.filter _ ↔ _ ∈ s.backend.reviewedFiles.filter _
    rw [List.mem_filter, List.mem_filter, hold]
    simp

/-! ## Runs -/

theorem Inv.step (h : s.Inv) {event : ReviewEvent} (htimely : s.Timely event) (hstep : s.step event = some t) : t.Inv := by
  cases event with
  | addComment content =>
    cases hstep
    exact h.ensureReviewExists _
  | updateComment id content =>
    cases hstep
    exact h.updateComment htimely
  | deleteComment id =>
    cases hstep
    exact h.deleteComment htimely
  | restoreComment id =>
    cases hstep
    exact h.restoreComment htimely
  | deleteAllComments =>
    cases hstep
    exact h.deleteAllComments htimely
  | markReviewed path =>
    cases hstep
    exact h.ensureReviewExists _
  | unmarkReviewed path =>
    cases hstep
    exact h.unmarkReviewed path
  | addReferenceFile path =>
    cases hstep
    rw [ReviewState.addReferenceFile]
    split
    · exact h
    · exact h.ensureReviewExists _
  | goOn i newId => exact h.goOn htimely hstep

end ReviewState

/-- The ids of the comments are a primary key, and only a comment that has been posted is marked as stale. -/
structure ReviewBackend.WellFormed (b : ReviewBackend) : Prop where
  ids : (b.rows.map (·.comment.id)).Nodup
  stale : ∀ row ∈ b.rows, row.comment.githubCommentStale = true → row.comment.githubCommentId.isSome = true

namespace ReviewState

variable {s : ReviewState}

theorem inv_createReviewState (hb : b.WellFormed) (reviewId : Option ℕ) :
    (createReviewState b reviewId).Inv := by
  have hinit (review : Option Review) : Inv { calls := [.existing review], backend := b } := by
    refine ⟨hb.ids, hb.stale, fun id hid => absurd hid List.not_mem_nil, fun call hcall id hid => ?_,
      fun id hid => (by cases hid), fun id hid => (by cases hid), fun id hid => (by cases hid), fun id hid => (by cases hid),
      fun _ => ⟨rfl, rfl, rfl⟩⟩
    rw [List.mem_singleton.mp hcall] at hid
    cases hid
  cases reviewId with
  | none => exact hinit _
  | some id => exact hinit _

/-- In a run of timely steps all mutations go to one review, and once everything has settled the state shows what the
backend holds for it. -/
theorem run_converges {b : ReviewBackend} {reviewId : Option ℕ} {events : List ReviewEvent} (hb : b.WellFormed)
    (hrun : run step (createReviewState b reviewId) events = some s)
    (htimely : Along step Timely (createReviewState b reviewId) events) (hsettled : s.calls = []) : s.Converged :=
  (run_invariant_along (fun _ _ _ h htimely hstep => Inv.step h htimely hstep) (inv_createReviewState hb reviewId)
    htimely hrun).converged hsettled

instance (s : ReviewState) (review : Review) : Decidable (s.Current review) :=
  inferInstanceAs (Decidable ((∀ id ∈ s.review, id = review.id) ∧
    (∀ c ∈ review.comments, c ∈ s.backend.active review.id) ∧
    (∀ c ∈ s.backend.active review.id, c ∈ review.comments ∨ c ∈ s.adding) ∧
    (∀ path ∈ review.reviewed, path ∈ s.backend.reviewed review.id) ∧
    ∀ path ∈ s.backend.reviewed review.id, path ∈ review.reviewed))

instance (s : ReviewState) : (call : ReviewCall) → Decidable (s.Fresh call)
  | .existing review => inferInstanceAs (Decidable (∀ r ∈ review, s.Current r))
  | .ensure review _ => inferInstanceAs (Decidable (s.Current review))
  | .deletedComments id comments => inferInstanceAs (Decidable
      ((∀ c ∈ comments, c ∈ s.backend.getDeletedComments id) ∧ ∀ c ∈ s.backend.getDeletedComments id, c ∈ comments))
  | .ensured .. | .added _ | .fileAtRef .. | .referenceFiles _ | .acknowledged => .isTrue trivial

instance (s : ReviewState) (id : ℕ) : Decidable (s.Known id) :=
  inferInstanceAs (Decidable ((∀ row ∈ s.backend.rows, row.comment.id = id → s.review = some row.review) ∧
    ∀ c ∈ s.adding, c.id ≠ id))

instance (s : ReviewState) : (event : ReviewEvent) → Decidable (s.Timely event)
  | .updateComment id _ => inferInstanceAs (Decidable
      (s.Known id ∧ ∀ row ∈ s.backend.rows, row.comment.id = id → row.deleted = false))
  | .deleteComment id => inferInstanceAs (Decidable (s.Known id))
  | .restoreComment id => inferInstanceAs (Decidable (s.Known id ∧
      ∀ row ∈ s.backend.rows, row.comment.id = id → row.deleted = true → row.comment ∈ s.deletedComments))
  | .deleteAllComments => inferInstanceAs (Decidable (s.review.isSome → s.adding = []))
  | .goOn i _ => inferInstanceAs (Decidable (∀ call ∈ s.calls[i]?, s.Fresh call))
  | .addComment _ | .markReviewed _ | .unmarkReviewed _ | .addReferenceFile _ => .isTrue trivial

/-- Two files are marked before the review exists. -/
def markTwo : List ReviewEvent :=
  [.goOn 0 0, .markReviewed ['p'], .markReviewed ['q'], .goOn 0 0, .goOn 2 0, .goOn 0 0, .goOn 3 0,
    .goOn 0 0, .goOn 0 0, .goOn 0 0, .goOn 0 0]

/-- A file is marked before the review with the given id has come. -/
def markEarly : List ReviewEvent :=
  [.markReviewed ['p'], .goOn 1 0, .goOn 2 0, .goOn 0 0, .goOn 0 0, .goOn 0 0, .goOn 0 0]

/-- Of two files that are marked at once, one is not shown as reviewed; and a file that is marked while a review is
loaded by its id goes to the latest review. -/
theorem run_diverges :
    (∃ s, run step (createReviewState {} none) markTwo = some s ∧ s.calls = [] ∧ s.reviewedPaths = [['q']] ∧
      s.backend.reviewed 0 = [['p'], ['q']] ∧ ¬ s.Converged) ∧
    ∃ s, run step (createReviewState { reviews := [1, 0], latest := some 1, nextReview := 2 } (some 0)) markEarly = some s ∧
      s.calls = [] ∧ s.review = some 0 ∧ s.mutated = [1] ∧ ¬ s.Converged := by
  refine ⟨?_, ?_⟩
  · obtain ⟨s, hrun, hs⟩ := exists_run_of_any
      (show (run step (createReviewState {} none) markTwo).any (fun s => decide (s.calls = [] ∧
        s.reviewedPaths = [['q']] ∧ s.backend.reviewed 0 = [['p'], ['q']] ∧ s.review = some 0)) = true by decide)
    obtain ⟨hsettled, hshown, hheld, hreview⟩ := of_decide_eq_true hs
    refine ⟨s, hrun, hsettled, hshown, hheld, fun hconverged => ?_⟩
    have hp := hconverged.reviewedPaths 0 hreview ['p']
    rw [hshown, hheld] at hp
    exact absurd (hp.mpr List.mem_cons_self) (by decide)
  · obtain ⟨s, hrun, hs⟩ := exists_run_of_any
      (show (run step (createReviewState { reviews := [1, 0], latest := some 1, nextReview := 2 } (some 0)) markEarly).any
        (fun s => decide (s.calls = [] ∧ s.review = some 0 ∧ s.mutated = [1])) = true by decide)
    obtain ⟨hsettled, hreview, hmutated⟩ := of_decide_eq_true hs
    refine ⟨s, hrun, hsettled, hreview, hmutated, fun hconverged => ?_⟩
    have hone := hconverged.mutated 1 (by rw [hmutated]; exact List.mem_singleton_self _)
    rw [hreview] at hone
    cases hone

/-- A first comment, and its deletion. -/
def commentOnce : List ReviewEvent :=
  [.goOn 0 0, .addComment [], .goOn 0 0, .goOn 0 0, .goOn 0 7, .goOn 0 0, .deleteComment 7, .goOn 0 0]

theorem run_converges_comment :
    ∃ s, run step (createReviewState {} none) commentOnce = some s ∧ s.mutated = [0, 0] ∧ s.Converged := by
  obtain ⟨s, hrun, hs⟩ := exists_run_of_any
    (show (run step (createReviewState {} none) commentOnce).any
      (fun s => decide (s.calls = [] ∧ s.mutated = [0, 0])) = true by decide)
  obtain ⟨hsettled, hmutated⟩ := of_decide_eq_true hs
  have hb : ReviewBackend.WellFormed {} := ⟨List.nodup_nil, fun row hrow => absurd hrow List.not_mem_nil⟩
  exact ⟨s, hrun, hmutated, run_converges hb hrun (by decide) hsettled⟩

end ReviewState

end Builderbot.DiffViewer
