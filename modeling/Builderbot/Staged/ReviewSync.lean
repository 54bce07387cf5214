import Builderbot.Git.Types
import Builderbot.Lib.Fault
import Builderbot.Lib.Table

/-!
# Syncing a review to GitHub

`sync_review_to_github` of `apps/staged/src-tauri/src/git/github.rs` with what it calls. The state is the pull request
on GitHub, where a user has at most one pending review. A request that changes it may be carried out although the
caller sees an error.

* `sync_keeps_iff`: the old review, which is deleted before the new one is created, survives every error unless its
  deletion has been carried out. A sync that returns leaves one pending review with every comment.
* `sync_loses` is a sync that loses the old review.
-/

namespace Builderbot.Staged

open Builderbot.Lib Builderbot.Lib.Text Builderbot.Git

/-! ## Comments -/

inductive CommentAuthor where
  | user
  | agent
deriving DecidableEq, Repr

structure Comment where
  id : Text
  path : Text
  span : Span
  content : Text
  author : CommentAuthor := .user
  /-- The id on GitHub, once posted. -/
  githubCommentId : Option ℤ := none
  /-- `review` (inline) or `issue` (fallback). -/
  githubCommentType : Option Text := none
  githubCommentStale : Bool := false
deriving DecidableEq, Repr

/-- Comment for creating a review. -/
structure GitHubReviewComment where
  path : Text
  body : Text
  line : ℕ
  side : Text
  startLine : Option ℕ
  startSide : Option Text
deriving DecidableEq, Repr

/-- A comment that cannot be placed on a line. -/
structure OutOfDiffComment where
  path : Text
  lineInfo : Text
  content : Text
deriving DecidableEq, Repr

/-- `span.start + 1` on `u32`. -/
def Comment.startLine (comment : Comment) : ℕ := (comment.span.start + 1) % u32Size

/-- `Lines a-b` or `Line b`. -/
def Comment.lineInfo (comment : Comment) : Text :=
  if comment.span.stop > comment.startLine then
    "Lines ".toList ++ decimal comment.startLine ++ "-".toList ++ decimal comment.span.stop
  else "Line ".toList ++ decimal comment.span.stop

/-- The comment on its lines. -/
def Comment.inline (comment : Comment) : GitHubReviewComment where
  path := comment.path
  body := comment.content
  line := comment.span.stop
  side := "RIGHT".toList
  startLine := if comment.span.stop > comment.startLine then some comment.startLine else none
  startSide := if comment.span.stop > comment.startLine then some "RIGHT".toList else none

def Comment.outOfDiff (comment : Comment) : OutOfDiffComment where
  path := comment.path
  lineInfo := comment.lineInfo
  content := comment.content

/-- `convert_comment`: without `valid_lines` every line is in the diff. -/
def convertComment (comment : Comment) (validLines : Option (List ℕ)) : OutOfDiffComment ⊕ GitHubReviewComment :=
  if (validLines.map fun valid => decide (comment.span.stop ∈ valid)).getD true then .inr comment.inline else .inl comment.outOfDiff

/-! ## The lines of a diff -/

structure PullRequestFile where
  filename : Text
  patch : Option Text
deriving DecidableEq, Repr

/-- The start of the new range of a hunk header, where it can be read. -/
def hunkNewStart (line : Text) : Option ℕ :=
  let afterPlus := (line.dropWhile (· ≠ '+')).drop 1
  let start := afterPlus.takeWhile fun c => c ≠ ',' ∧ c ≠ ' '
  if '+' ∈ line ∧ start.length < afterPlus.length then parseU32 start else none

/-- The loop over the lines of a patch, from the current line of the new file. -/
def patchLines : ℕ → List Text → List ℕ
  | _, [] => []
  | currentLine, line :: rest =>
    if "@@".toList <+: line then patchLines ((hunkNewStart line).getD currentLine) rest
    else if "-".toList <+: line then patchLines currentLine rest
    else if "+".toList <+: line ∨ ¬ "\\".toList <+: line then
      currentLine :: patchLines ((currentLine + 1) % u32Size) rest
    else patchLines currentLine rest

def PullRequestFile.validLines (file : PullRequestFile) : List ℕ :=
  (file.patch.map fun patch => patchLines 0 (lines patch)).getD []

/-- `valid_lines_by_file`. -/
def validLinesByFile (files : List PullRequestFile) : Table Text (List ℕ) :=
  files.foldl (fun result file => result.insert file.filename file.validLines) ∅

/-! ## GitHub -/

structure GitHubReview where
  id : ℕ
  state : Text
  login : Text
  body : Option Text
  comments : List GitHubReviewComment
deriving DecidableEq, Repr

def GitHubReview.IsPendingOf (login : Text) (review : GitHubReview) : Prop :=
  review.state = "PENDING".toList ∧ review.login = login

instance (login : Text) : DecidablePred (GitHubReview.IsPendingOf login) := fun review =>
  inferInstanceAs (Decidable (review.state = "PENDING".toList ∧ review.login = login))

/-- A pull request and its reviews. -/
structure GitHubPullRequest where
  /-- The user of the token. -/
  viewer : Text
  reviews : List GitHubReview
  /-- The next id that GitHub gives out. -/
  nextId : ℕ
  /-- The length of a page when reviews are listed. -/
  perPage : ℕ
  ids : ∀ review ∈ reviews, review.id < nextId
  ids_nodup : (reviews.map (·.id)).Nodup
  one_pending : ∀ login, (reviews.filter (·.IsPendingOf login)).length ≤ 1

/-- Request body for creating a review; without an event it is pending. -/
structure CreateReviewRequest where
  body : Option Text
  comments : List GitHubReviewComment
deriving DecidableEq, Repr

namespace GitHubPullRequest

variable (pr : GitHubPullRequest)

/-- The pending reviews of the viewer. -/
def pending : List GitHubReview := pr.reviews.filter (·.IsPendingOf pr.viewer)

def deleteReview (id : ℕ) : GitHubPullRequest where
  viewer := pr.viewer
  reviews := pr.reviews.filter (·.id ≠ id)
  nextId := pr.nextId
  perPage := pr.perPage
  ids review hreview := pr.ids review (List.mem_filter.mp hreview).1
  ids_nodup := pr.ids_nodup.sublist (List.filter_sublist.map _)
  one_pending login := Nat.le_trans (List.filter_sublist.filter _).length_le (pr.one_pending login)

def newReview (request : CreateReviewRequest) : GitHubReview where
  id := pr.nextId
  state := "PENDING".toList
  login := pr.viewer
  body := request.body
  comments := request.comments

/-- Create a pending review, of a user who has none. -/
def createReview (request : CreateReviewRequest) (h : pr.pending = []) : GitHubPullRequest where
  viewer := pr.viewer
  reviews := pr.reviews ++ [pr.newReview request]
  nextId := pr.nextId + 1
  perPage := pr.perPage
  ids review hreview := by
    rcases List.mem_append.mp hreview with hreview | hreview
    · exact Nat.lt_succ_of_lt (pr.ids review hreview)
    · rw [List.mem_singleton.mp hreview]
      exact Nat.lt_succ_self _
  ids_nodup := by
    rw [List.map_append, List.nodup_append]
    refine ⟨pr.ids_nodup, List.nodup_singleton _, fun id hid id' hid' => ?_⟩
    obtain ⟨review, hreview, rfl⟩ := List.mem_map.mp hid
    rw [List.mem_singleton.mp hid']
    exact Nat.ne_of_lt (pr.ids review hreview)
  one_pending login := by
    rw [List.filter_append, List.length_append]
    by_cases hlogin : login = pr.viewer
    · subst hlogin
      have hold : pr.reviews.filter (·.IsPendingOf pr.viewer) = [] := h
      rw [hold, List.length_nil, Nat.zero_add]
      exact List.length_filter_le _ _
    · have hnew : [pr.newReview request].filter (·.IsPendingOf login) = [] :=
        List.filter_eq_nil_iff.mpr fun review hreview => by
          rw [List.mem_singleton.mp hreview, decide_eq_true_eq]
          exact fun hpending => hlogin hpending.2.symm
      rw [hnew]
      exact pr.one_pending login

end GitHubPullRequest

/-! ## Requests -/

inductive GitError where
  | gitNotFound
  | notARepo (path : Text)
  | commandFailed (message : Text)
  | invalidUtf8
  | invalidPath (path : Text)
deriving DecidableEq, Repr

/-- Why a request has no good answer. -/
inductive RequestError where
  | send (error : Text)
  | status (status body : Text)
  /-- The body of a good answer cannot be read. -/
  | json (error : Text)
deriving DecidableEq, Repr

/-- What becomes of a request that changes something. -/
inductive Delivery where
  | answered
  /-- It is carried out, but the caller sees an error. -/
  | lost (error : RequestError)
  | refused (error : RequestError)
deriving DecidableEq, Repr

def Delivery.carriedOut : Delivery → Bool
  | .answered | .lost _ => true
  | .refused _ => false

def Delivery.failure : Delivery → Option RequestError
  | .answered => none
  | .lost error | .refused error => some error

theorem Delivery.carriedOut_of_answered {delivery : Delivery} (h : delivery.failure = none) :
    delivery.carriedOut = true := by
  cases delivery with
  | answered => rfl
  | lost error => cases h
  | refused error => cases h

/-- What the outside answers to one sync: the token, the origin, and each request. -/
structure SyncAnswers where
  token : Option GitError := none
  origin : Option GitError := none
  owner : Text := []
  repoName : Text := []
  user : Option RequestError := none
  files : Option RequestError := none
  pullRequestFiles : List PullRequestFile := []
  reviews : Option RequestError := none
  delete : Delivery := .answered
  create : Delivery := .answered
  htmlUrl : Text := []

/-- Requests on the pull request. -/
abbrev SyncM (α : Type) := EStateM GitError GitHubPullRequest α

section

variable (answers : SyncAnswers)

def getCurrentUser : SyncM Text := do
  attempt (answers.user.map fun
    | .send error => .commandFailed ("Failed to get current user: ".toList ++ error)
    | .status status _ => .commandFailed ("Failed to get current user: ".toList ++ status)
    | .json error => .commandFailed ("Failed to parse user response: ".toList ++ error))
  let pr ← get
  return pr.viewer

def fetchPrDiffLines (prNumber : ℕ) : SyncM (Table Text (List ℕ)) := do
  attempt (answers.files.map fun
    | .send error => .commandFailed ("Failed to fetch PR files: ".toList ++ error)
    | .status status _ => .commandFailed ("Failed to fetch PR files from ".toList ++ answers.owner ++ "/".toList ++
        answers.repoName ++ " PR #".toList ++ decimal prNumber ++ ": ".toList ++ status)
    | .json error => .commandFailed ("Failed to parse PR files: ".toList ++ error))
  return validLinesByFile answers.pullRequestFiles

/-- The first pending review of the user on the first page. -/
def GitHubPullRequest.findPendingReview (pr : GitHubPullRequest) (username : Text) : Option GitHubReview :=
  (pr.reviews.take pr.perPage).find? (·.IsPendingOf username)

def findPendingReview (username : Text) : SyncM (Option GitHubReview) := do
  attempt (answers.reviews.map fun
    | .send error => .commandFailed ("Failed to list reviews: ".toList ++ error)
    | .status status _ => .commandFailed ("Failed to list reviews: ".toList ++ status)
    | .json error => .commandFailed ("Failed to parse reviews: ".toList ++ error))
  let pr ← get
  return pr.findPendingReview username

/-- The body of the answer is not read. -/
def deleteFailure : RequestError → Option GitError
  | .send error => some (.commandFailed ("Failed to delete review: ".toList ++ error))
  | .status status _ => some (.commandFailed ("Failed to delete pending review: ".toList ++ status))
  | .json _ => none

def deletePendingReview (reviewId : ℕ) : SyncM Unit := do
  modify fun pr => if answers.delete.carriedOut then pr.deleteReview reviewId else pr
  attempt (answers.delete.failure.bind deleteFailure)

def createFailure : RequestError → GitError
  | .send error => .commandFailed ("Failed to create review: ".toList ++ error)
  | .status status body =>
    .commandFailed ("Failed to create review: ".toList ++ status ++ " - ".toList ++ body)
  | .json error => .commandFailed ("Failed to parse review response: ".toList ++ error)

/-- `POST` of a review. GitHub refuses it to a user who has a pending one. -/
def createReview (request : CreateReviewRequest) : SyncM Text := do
  let pr ← get
  if h : pr.pending = [] then
    modify fun _ => if answers.create.carriedOut then pr.createReview request h else pr
    attempt (answers.create.failure.map createFailure)
  else
    throw (createFailure (answers.create.failure.getD (.status "422 Unprocessable Entity".toList [])))
  return answers.htmlUrl

end

/-! ## The sync -/

/-- One comment in the body of a review. -/
def OutOfDiffComment.bodySection (comment : OutOfDiffComment) : Text :=
  "**".toList ++ comment.path ++ "** (".toList ++ comment.lineInfo ++ ")\n\n".toList ++ comment.content ++
    "\n\n---\n\n".toList

def reviewBodyHeader : Text := "### Comments on lines outside the diff\n\n".toList

/-- `review_body`. -/
def reviewBody (outOfDiffComments : List OutOfDiffComment) : Option Text :=
  if outOfDiffComments.isEmpty then none
  else some (outOfDiffComments.foldl (fun body comment => body ++ comment.bodySection) reviewBodyHeader)

/-- The loop that converts the comments. -/
def convertComments (validLinesByFile : Table Text (List ℕ)) (comments : List Comment) :
    List GitHubReviewComment × List OutOfDiffComment :=
  comments.foldl (fun result comment =>
    match convertComment comment (validLinesByFile.lookup comment.path) with
    | .inr ghComment => (result.1 ++ [ghComment], result.2)
    | .inl outOfDiff => (result.1, result.2 ++ [outOfDiff])) ([], [])

structure GitHubSyncResult where
  reviewUrl : Text
  commentCount : ℕ
deriving DecidableEq, Repr

def syncReviewToGithub (answers : SyncAnswers) (prNumber : ℕ) (comments : List Comment) : SyncM GitHubSyncResult := do
  attempt (if comments.isEmpty then some (.commandFailed "No comments to sync".toList) else none)
  attempt answers.token
  attempt answers.origin
  let username ← getCurrentUser answers
  let validLinesByFile ← fetchPrDiffLines answers prNumber
  let existing ← findPendingReview answers username
  match existing with
  | some review => deletePendingReview answers review.id
  | none => pure ()
  let converted := convertComments validLinesByFile comments
  let reviewUrl ← createReview answers ⟨reviewBody converted.2, converted.1⟩
  return ⟨reviewUrl, converted.1.length + converted.2.length⟩

/-! ## What a review carries -/

/-- The review has each of the comments once, on its lines or in its body. -/
def GitHubReview.Carries (comments : List Comment) (review : GitHubReview) : Prop :=
  ∃ inDiff outside : List Comment, (inDiff ++ outside).Perm comments ∧ review.comments = inDiff.map (·.inline) ∧
    review.body = if outside = [] then none
      else some (reviewBodyHeader ++ outside.flatMap (·.outOfDiff.bodySection))

/-- The comment goes on its lines. -/
def Comment.InDiff (validLinesByFile : Table Text (List ℕ)) (comment : Comment) : Bool :=
  ((validLinesByFile.lookup comment.path).map fun valid => decide (comment.span.stop ∈ valid)).getD true

theorem convertComments_eq (validLinesByFile : Table Text (List ℕ)) (comments : List Comment) :
    convertComments validLinesByFile comments =
      ((comments.filter (·.InDiff validLinesByFile)).map (·.inline),
        (comments.filter fun comment => ¬ comment.InDiff validLinesByFile).map (·.outOfDiff)) := by
  suffices hloop : ∀ result : List GitHubReviewComment × List OutOfDiffComment,
      comments.foldl (fun result comment =>
        match convertComment comment (validLinesByFile.lookup comment.path) with
        | .inr ghComment => (result.1 ++ [ghComment], result.2)
        | .inl outOfDiff => (result.1, result.2 ++ [outOfDiff])) result =
      (result.1 ++ (comments.filter (·.InDiff validLinesByFile)).map (·.inline),
        result.2 ++ (comments.filter fun comment => ¬ comment.InDiff validLinesByFile).map (·.outOfDiff)) from
    hloop ([], [])
  induction comments with
  | nil => simp
  | cons comment comments ih =>
    intro result
    rw [List.foldl_cons, ih]
    by_cases hin : comment.InDiff validLinesByFile
    · have hconvert : convertComment comment (validLinesByFile.lookup comment.path) = .inr comment.inline := if_pos hin
      simp [hconvert, hin]
    · have hconvert : convertComment comment (validLinesByFile.lookup comment.path) = .inl comment.outOfDiff := if_neg hin
      simp [hconvert, hin]

theorem reviewBody_map (comments : List Comment) :
    reviewBody (comments.map (·.outOfDiff)) = if comments = [] then none
      else some (reviewBodyHeader ++ comments.flatMap (·.outOfDiff.bodySection)) := by
  have hfold (body : Text) : (comments.map (·.outOfDiff)).foldl (fun body comment => body ++ comment.bodySection) body =
      body ++ comments.flatMap (·.outOfDiff.bodySection) := by
    induction comments generalizing body with
    | nil => simp
    | cons comment comments ih => simp [ih]
  rw [reviewBody, hfold]
  cases comments <;> rfl

/-- The review that is created carries the comments. -/
theorem carries_newReview (pr : GitHubPullRequest) (validLinesByFile : Table Text (List ℕ)) (comments : List Comment) :
    (pr.newReview ⟨reviewBody (convertComments validLinesByFile comments).2,
      (convertComments validLinesByFile comments).1⟩).Carries comments := by
  rw [convertComments_eq]
  refine ⟨comments.filter (·.InDiff validLinesByFile),
    comments.filter fun comment => ¬ comment.InDiff validLinesByFile, ?_, rfl, reviewBody_map _⟩
  simpa using List.filter_append_perm (·.InDiff validLinesByFile) comments

/-! ## Pending reviews -/

namespace GitHubPullRequest

variable {pr : GitHubPullRequest} {review : GitHubReview}

theorem findPendingReview_mem (h : pr.findPendingReview pr.viewer = some review) : review ∈ pr.pending :=
  List.mem_filter.mpr ⟨List.mem_of_mem_take (List.mem_of_find?_eq_some h), by simpa using List.find?_some h⟩

theorem pending_eq_singleton (h : review ∈ pr.pending) : pr.pending = [review] := by
  have hlength : pr.pending.length ≤ 1 := pr.one_pending pr.viewer
  obtain ⟨other, hother⟩ : ∃ other, pr.pending = [other] := by
    apply List.length_eq_one_iff.mp
    have hpos : 0 < pr.pending.length := List.length_pos_of_mem h
    omega
  rw [hother, List.mem_singleton] at h
  rw [hother, h]

theorem notMem_deleteReview : review ∉ (pr.deleteReview review.id).reviews := by
  intro hmem
  have hid := (List.mem_filter.mp hmem).2
  simp at hid

theorem pending_deleteReview (h : review ∈ pr.pending) : (pr.deleteReview review.id).pending = [] := by
  apply List.eq_nil_iff_forall_not_mem.mpr
  intro other hother
  obtain ⟨hmem, hpending⟩ := List.mem_filter.mp hother
  have hold : other ∈ pr.pending := List.mem_filter.mpr ⟨(List.mem_filter.mp hmem).1, hpending⟩
  rw [pending_eq_singleton h, List.mem_singleton] at hold
  exact notMem_deleteReview (hold ▸ hmem)

theorem pending_createReview (request : CreateReviewRequest) (h : pr.pending = []) :
    (pr.createReview request h).pending = [pr.newReview request] := by
  show (pr.reviews ++ [pr.newReview request]).filter (·.IsPendingOf pr.viewer) = _
  rw [List.filter_append]
  have hold : pr.reviews.filter (·.IsPendingOf pr.viewer) = [] := h
  have hnew : (pr.newReview request).IsPendingOf pr.viewer := ⟨rfl, rfl⟩
  rw [hold, List.nil_append, List.filter_singleton, decide_eq_true hnew]
  rfl

end GitHubPullRequest

/-! ## What a sync leaves -/

/-- The pending review of before is still there. -/
def Kept (before after : GitHubPullRequest) : Prop := ∀ review ∈ before.pending, review ∈ after.reviews

/-- There is one pending review, which carries the comments. -/
def Synced (comments : List Comment) (after : GitHubPullRequest) : Prop :=
  ∃ review, after.pending = [review] ∧ review.Carries comments

/-- A sync loses nothing. -/
def SyncKeeps (answers : SyncAnswers) (prNumber : ℕ) (comments : List Comment) (pr : GitHubPullRequest) : Prop :=
  ErrorsIn (Kept pr) (syncReviewToGithub answers prNumber comments) pr ∧
    ReturnsIn (fun _ after => Synced comments after) (syncReviewToGithub answers prNumber comments) pr

/-- The sync finds a pending review, and GitHub deletes it. -/
def Deletes (answers : SyncAnswers) (comments : List Comment) (pr : GitHubPullRequest) : Prop :=
  comments ≠ [] ∧ answers.token = none ∧ answers.origin = none ∧ answers.user = none ∧ answers.files = none ∧
    answers.reviews = none ∧ pr.findPendingReview pr.viewer ≠ none ∧ answers.delete.carriedOut = true

section

variable {α : Type} {answers : SyncAnswers} {pr : GitHubPullRequest} {P : GitHubPullRequest → Prop}
  {Q : α → GitHubPullRequest → Prop}

theorem errorsIn_getCurrentUser_bind (hs : P pr) (f : Text → SyncM α) :
    ErrorsIn P (getCurrentUser answers >>= f) pr ↔ (answers.user = none → ErrorsIn P (f pr.viewer) pr) := by
  rw [getCurrentUser, errorsIn_bind_assoc, errorsIn_attempt_bind_of hs, Option.map_eq_none_iff]
  rfl

theorem errorsIn_fetchPrDiffLines_bind (hs : P pr) (prNumber : ℕ) (f : Table Text (List ℕ) → SyncM α) :
    ErrorsIn P (fetchPrDiffLines answers prNumber >>= f) pr ↔
      (answers.files = none → ErrorsIn P (f (validLinesByFile answers.pullRequestFiles)) pr) := by
  rw [fetchPrDiffLines, errorsIn_bind_assoc, errorsIn_attempt_bind_of hs, Option.map_eq_none_iff]
  rfl

theorem errorsIn_findPendingReview_bind (hs : P pr) (username : Text) (f : Option GitHubReview → SyncM α) :
    ErrorsIn P (findPendingReview answers username >>= f) pr ↔
      (answers.reviews = none → ErrorsIn P (f (pr.findPendingReview username)) pr) := by
  rw [findPendingReview, errorsIn_bind_assoc, errorsIn_attempt_bind_of hs, Option.map_eq_none_iff]
  rfl

theorem errorsIn_deletePendingReview_bind (reviewId : ℕ) (f : Unit → SyncM α) :
    ErrorsIn P (deletePendingReview answers reviewId >>= f) pr ↔
      (answers.delete.failure.bind deleteFailure ≠ none →
        P (if answers.delete.carriedOut then pr.deleteReview reviewId else pr)) ∧
      (answers.delete.failure.bind deleteFailure = none →
        ErrorsIn P (f ()) (if answers.delete.carriedOut then pr.deleteReview reviewId else pr)) := by
  rw [deletePendingReview, errorsIn_bind_assoc, errorsIn_modify_bind, errorsIn_attempt_bind]

/-- Where a pending review is left, GitHub refuses another, and nothing changes. -/
theorem errorsIn_createReview_bind_of_ne (hs : P pr) (h : pr.pending ≠ []) (request : CreateReviewRequest)
    (f : Text → SyncM α) : ErrorsIn P (createReview answers request >>= f) pr := by
  rw [createReview, errorsIn_bind_assoc, errorsIn_get_bind, dif_neg h]
  exact hs

theorem errorsIn_createReview_bind (h : pr.pending = []) (request : CreateReviewRequest) (f : Text → α) :
    ErrorsIn P (createReview answers request >>= fun url => pure (f url)) pr ↔
      (answers.create.failure ≠ none →
        P (if answers.create.carriedOut then pr.createReview request h else pr)) := by
  rw [createReview, errorsIn_bind_assoc, errorsIn_get_bind, dif_pos h, errorsIn_bind_assoc, errorsIn_modify_bind,
    errorsIn_bind_assoc, errorsIn_attempt_bind, ne_eq, Option.map_eq_none_iff]
  exact ⟨And.left, fun hlost => ⟨hlost, fun _ => trivial⟩⟩

theorem returnsIn_createReview_bind (request : CreateReviewRequest) (f : Text → α)
    (hcreated : ∀ h : pr.pending = [], ∀ a, Q a (pr.createReview request h)) :
    ReturnsIn Q (createReview answers request >>= fun url => pure (f url)) pr := by
  rw [createReview, returnsIn_bind_assoc, returnsIn_get_bind]
  by_cases h : pr.pending = []
  · rw [dif_pos h, returnsIn_bind_assoc, returnsIn_modify_bind, returnsIn_bind_assoc,
      returnsIn_attempt_bind, Option.map_eq_none_iff]
    intro hanswered
    rw [answers.create.carriedOut_of_answered hanswered]
    exact hcreated h _
  · rw [dif_neg h]
    exact trivial

end

variable {answers : SyncAnswers} {pr : GitHubPullRequest}

/-- Without a pending review, or where it is not deleted, nothing is lost. -/
theorem kept_createReview (request : CreateReviewRequest) (h : pr.pending = []) (carriedOut : Bool) :
    Kept pr (if carriedOut then pr.createReview request h else pr) := by
  intro review hreview
  rw [h] at hreview
  cases hreview

/-- A deleted review is not kept, whatever is created after it. -/
theorem not_kept_deleteReview {review : GitHubReview} (hpending : review ∈ pr.pending) (request : CreateReviewRequest)
    (h : (pr.deleteReview review.id).pending = []) (carriedOut : Bool) :
    ¬ Kept pr (if carriedOut then (pr.deleteReview review.id).createReview request h else pr.deleteReview review.id) := by
  intro hkept
  have hmem := hkept review hpending
  cases carriedOut with
  | false => exact GitHubPullRequest.notMem_deleteReview hmem
  | true =>
    rcases List.mem_append.mp hmem with hold | hnew
    · exact GitHubPullRequest.notMem_deleteReview hold
    · have hid : review.id < pr.nextId := pr.ids review (List.mem_filter.mp hpending).1
      have hnextId : review.id = pr.nextId := congrArg GitHubReview.id (List.mem_singleton.mp hnew)
      omega

/-- The end of a sync, after the old review is deleted. -/
theorem errorsIn_createReview_of_deleted {review : GitHubReview} (hpending : review ∈ pr.pending)
    (request : CreateReviewRequest) (f : Text → GitHubSyncResult) :
    ErrorsIn (Kept pr) (createReview answers request >>= fun url => pure (f url)) (pr.deleteReview review.id) ↔
      answers.create.failure = none := by
  have hnone : (pr.deleteReview review.id).pending = [] := GitHubPullRequest.pending_deleteReview hpending
  rw [errorsIn_createReview_bind hnone, not_imp_comm]
  exact ⟨fun h => h (not_kept_deleteReview hpending request hnone _), fun h _ => h⟩

/-- The end of a sync, where no review was deleted. -/
theorem errorsIn_createReview_of_kept (request : CreateReviewRequest) (f : Text → GitHubSyncResult) :
    ErrorsIn (Kept pr) (createReview answers request >>= fun url => pure (f url)) pr := by
  by_cases hnone : pr.pending = []
  · rw [errorsIn_createReview_bind hnone]
    exact fun _ => kept_createReview request hnone _
  · exact errorsIn_createReview_bind_of_ne (fun review hreview => (List.mem_filter.mp hreview).1) hnone request _

/-- A sync may fail up to the deletion of the old review, and not after it. -/
theorem errorsIn_syncReviewToGithub (prNumber : ℕ) (comments : List Comment) :
    ErrorsIn (Kept pr) (syncReviewToGithub answers prNumber comments) pr ↔
      (Deletes answers comments pr →
        answers.delete.failure.bind deleteFailure = none ∧ answers.create.failure = none) := by
  have hs : Kept pr pr := fun review hreview => (List.mem_filter.mp hreview).1
  have hempty : (if comments.isEmpty then some (GitError.commandFailed "No comments to sync".toList) else none) = none ↔
      comments ≠ [] := by
    cases comments <;> simp
  rw [syncReviewToGithub, errorsIn_attempt_bind_of hs, errorsIn_attempt_bind_of hs, errorsIn_attempt_bind_of hs,
    errorsIn_getCurrentUser_bind hs, errorsIn_fetchPrDiffLines_bind hs, errorsIn_findPendingReview_bind hs, hempty]
  simp only [Deletes, and_imp]
  refine imp_congr_right fun _ => imp_congr_right fun _ => imp_congr_right fun _ => imp_congr_right fun _ =>
    imp_congr_right fun _ => imp_congr_right fun _ => ?_
  -- with no pending review there is nothing to lose
  cases hfind : pr.findPendingReview pr.viewer with
  | none => exact ⟨fun _ hfound => absurd rfl hfound, fun _ => errorsIn_createReview_of_kept _ _⟩
  | some review =>
    have hpending : review ∈ pr.pending := GitHubPullRequest.findPendingReview_mem hfind
    show ErrorsIn (Kept pr) (deletePendingReview answers review.id >>= _) pr ↔ _
    rw [errorsIn_deletePendingReview_bind]
    cases answers.delete.carriedOut with
    | false => exact ⟨fun _ _ hcarried => Bool.noConfusion hcarried,
        fun _ => ⟨fun _ => hs, fun _ => errorsIn_createReview_of_kept _ _⟩⟩
    | true =>
      -- once the review is deleted, no error may follow
      have hlost : ¬ Kept pr (pr.deleteReview review.id) := fun hkept =>
        GitHubPullRequest.notMem_deleteReview (hkept review hpending)
      rw [if_pos rfl, not_imp_comm]
      constructor
      · rintro ⟨hdeleted, hcreated⟩ - -
        have hnone : answers.delete.failure.bind deleteFailure = none := hdeleted hlost
        exact ⟨hnone, (errorsIn_createReview_of_deleted hpending _ _).mp (hcreated hnone)⟩
      · intro h
        obtain ⟨hdeleted, hcreated⟩ := h (Option.some_ne_none review) rfl
        exact ⟨fun _ => hdeleted, fun _ => (errorsIn_createReview_of_deleted hpending _ _).mpr hcreated⟩

/-- A sync that returns leaves one pending review with all comments. -/
theorem returnsIn_syncReviewToGithub (prNumber : ℕ) (comments : List Comment) :
    ReturnsIn (fun _ after => Synced comments after) (syncReviewToGithub answers prNumber comments) pr := by
  have hcreate (start : GitHubPullRequest) (f : Text → GitHubSyncResult) :
      ReturnsIn (fun _ after => Synced comments after)
        (createReview answers ⟨reviewBody (convertComments (validLinesByFile answers.pullRequestFiles) comments).2,
          (convertComments (validLinesByFile answers.pullRequestFiles) comments).1⟩ >>= fun url => pure (f url)) start :=
    returnsIn_createReview_bind _ _ fun h _ =>
      ⟨_, GitHubPullRequest.pending_createReview _ h, carries_newReview start _ comments⟩
  rw [syncReviewToGithub, returnsIn_attempt_bind, returnsIn_attempt_bind, returnsIn_attempt_bind, getCurrentUser,
    returnsIn_bind_assoc, returnsIn_attempt_bind]
  intro _ _ _ _
  rw [returnsIn_bind_assoc, returnsIn_get_bind]
  show ReturnsIn _ (fetchPrDiffLines answers prNumber >>= _) pr
  rw [fetchPrDiffLines, returnsIn_bind_assoc, returnsIn_attempt_bind]
  intro _
  show ReturnsIn _ (findPendingReview answers pr.viewer >>= _) pr
  rw [findPendingReview, returnsIn_bind_assoc, returnsIn_attempt_bind]
  intro _
  rw [returnsIn_bind_assoc, returnsIn_get_bind]
  show ReturnsIn _ (match pr.findPendingReview pr.viewer with
    | some review => deletePendingReview answers review.id >>= fun _ => _
    | none => _) pr
  cases pr.findPendingReview pr.viewer with
  | none => exact hcreate pr _
  | some review =>
    show ReturnsIn _ (deletePendingReview answers review.id >>= _) pr
    rw [deletePendingReview, returnsIn_bind_assoc, returnsIn_modify_bind, returnsIn_attempt_bind]
    exact fun _ => hcreate _ _

/-- A sync loses nothing, exactly if it fails only before the old review is deleted, or does not delete one. Whenever it
returns, one pending review has all comments. -/
theorem sync_keeps_iff (answers : SyncAnswers) (prNumber : ℕ) (comments : List Comment) (pr : GitHubPullRequest) :
    (SyncKeeps answers prNumber comments pr ↔
      (Deletes answers comments pr →
        answers.delete.failure.bind deleteFailure = none ∧ answers.create.failure = none)) ∧
      ReturnsIn (fun _ after => Synced comments after) (syncReviewToGithub answers prNumber comments) pr := by
  have hreturns : ReturnsIn (fun _ after => Synced comments after) (syncReviewToGithub answers prNumber comments) pr :=
    returnsIn_syncReviewToGithub prNumber comments
  refine ⟨?_, hreturns⟩
  rw [SyncKeeps, errorsIn_syncReviewToGithub]
  exact ⟨And.left, fun h => ⟨h, hreturns⟩⟩

/-- The request for the new review does not arrive; the old one is deleted. -/
theorem sync_loses :
    ¬ SyncKeeps { create := .refused (.send "timeout".toList) } 7 [{ id := [], path := "a".toList, span := ⟨0, 1⟩, content := [] }]
      { viewer := "me".toList
        reviews := [⟨1, "PENDING".toList, "me".toList, some "old".toList, []⟩]
        nextId := 2
        perPage := 30
        ids := by decide
        ids_nodup := List.nodup_singleton _
        one_pending := fun _ => List.length_filter_le _ _ } := by
  intro hkeeps
  obtain ⟨-, hcreated⟩ := (errorsIn_syncReviewToGithub 7 _).mp hkeeps.1
    ⟨List.cons_ne_nil _ _, rfl, rfl, rfl, rfl, rfl, by decide, rfl⟩
  cases hcreated

end Builderbot.Staged
