import Builderbot.Lib.Run
import Builderbot.Staged.ReviewSync

/-!
# Tracking comments on GitHub

`post_comment_to_github_impl` of `apps/staged/src-tauri/src/github_commands.rs`, with the functions it calls in
`git/github.rs`, and `update_comment` and `set_github_comment` of `store/reviews.rs`. A call works on the copy of the row
that it was given; GitHub carries out its request later, and the answer is stored later again.

* `step_truthful_iff`: which steps keep the tracking truthful. For each comment on GitHub the model remembers the
  content that its body was last built from.
* `run_truthful_iff`: a run is truthful throughout exactly if all its steps are of that kind. `run_untruthful` shows
  two comments for one row, and a row that is marked as in sync after an edit.
-/

namespace Builderbot.Staged

open Builderbot.Lib.Text Builderbot.Git

/-! ## Bodies -/

def githubSingleCommentBody (comment : Comment) : Text :=
  if comment.author = .agent then comment.content ++ "\n\nGenerated by AI".toList else comment.content

def githubIssueCommentBody (comment : Comment) (body : Text) : Text :=
  "**".toList ++ comment.path ++ "** (".toList ++ comment.lineInfo ++ ")\n\n".toList ++ body

inductive GitHubCommentType where
  | review
  | issue
deriving DecidableEq, Repr

def GitHubCommentType.text : GitHubCommentType → Text
  | .review => "review".toList
  | .issue => "issue".toList

variable {type : GitHubCommentType}

theorem GitHubCommentType.text_inj {type' : GitHubCommentType} (h : type.text = type'.text) : type = type' := by
  revert h
  cases type <;> cases type' <;> decide

/-- The body built from a comment. -/
def Comment.githubBody (comment : Comment) : GitHubCommentType → Text
  | .review => githubSingleCommentBody comment
  | .issue => githubIssueCommentBody comment (githubSingleCommentBody comment)

/-! ## The system -/

structure GitHubComment where
  id : ℤ
  type : GitHubCommentType
  /-- The local comment it was created for. -/
  comment : Text
  body : Text
  /-- The content that the body was built from. -/
  content : Text
deriving DecidableEq, Repr

inductive PostPhase where
  | requesting
  /-- GitHub has answered. -/
  | posted (id : ℤ) (type : GitHubCommentType)
  | returned (ok : Bool)
deriving DecidableEq, Repr

structure PostCall where
  /-- The copy of the row. -/
  comment : Comment
  phase : PostPhase := .requesting
deriving DecidableEq, Repr

structure CommentTracking where
  rows : Table Text Comment := ∅
  github : List GitHubComment := []
  nextId : ℕ := 0
  calls : List PostCall := []
deriving DecidableEq

inductive TrackingEvent where
  | updateComment (id content : Text)
  /-- A call is given a copy of the row. -/
  | post (id : Text)
  /-- Up to the answer to the request: the lines of the diff, for a comment that is not posted yet, and what becomes of
  the request, or of the call before it. -/
  | request (call : ℕ) (validLines : Option (List ℕ)) (delivery : Delivery)
  /-- `set_github_comment`, or an error of the store. -/
  | store (call : ℕ) (ok : Bool)
deriving DecidableEq, Repr

/-- What `update_comment` sets in a row. -/
def Comment.update (content : Text) (row : Comment) : Comment :=
  { row with content, githubCommentStale := row.githubCommentId.isSome }

/-- What `set_github_comment` sets in a row. -/
def Comment.setGithub (id : ℤ) (type : GitHubCommentType) (row : Comment) : Comment :=
  { row with githubCommentId := some id, githubCommentType := some type.text, githubCommentStale := false }

def GitHubComment.setBody (comment : Comment) (id : ℤ) (type : GitHubCommentType) (gh : GitHubComment) : GitHubComment :=
  if gh.id = id ∧ gh.type = type then { gh with body := comment.githubBody type, content := comment.content } else gh

/-- What a call asks of GitHub. -/
inductive GitHubRequest where
  | create (type : GitHubCommentType)
  | update (id : ℤ) (type : GitHubCommentType)
  /-- `Unknown GitHub comment type`. -/
  | unknown
deriving DecidableEq, Repr

/-- The request for the copy of a row. -/
def Comment.request (comment : Comment) (validLines : Option (List ℕ)) : GitHubRequest :=
  match comment.githubCommentId, comment.githubCommentType with
  | some id, some type =>
    if type = "review".toList then .update id .review
    else if type = "issue".toList then .update id .issue
    else .unknown
  | _, _ =>
    match convertComment comment validLines with
    | .inr _ => .create .review
    | .inl _ => .create .issue

namespace CommentTracking

variable (s : CommentTracking)

def setCall (i : ℕ) (call : PostCall) (phase : PostPhase) : CommentTracking :=
  { s with calls := s.calls.set i { call with phase } }

/-- `set_github_comment`. -/
def setGithubComment (commentId : Text) (id : ℤ) (type : GitHubCommentType) : CommentTracking :=
  match s.rows.lookup commentId with
  | some row => { s with rows := s.rows.insert commentId (row.setGithub id type) }
  | none => s

/-- GitHub creates a comment. -/
def create (comment : Comment) (type : GitHubCommentType) : CommentTracking :=
  { s with
    github := s.github ++ [⟨s.nextId, type, comment.id, comment.githubBody type, comment.content⟩]
    nextId := s.nextId + 1 }

/-- GitHub replaces the body of a comment. -/
def update (comment : Comment) (id : ℤ) (type : GitHubCommentType) : CommentTracking :=
  { s with github := s.github.map (·.setBody comment id type) }

/-- The end of a request for which GitHub has the id. -/
def answer (i : ℕ) (call : PostCall) (delivery : Delivery) (id : ℤ) (type : GitHubCommentType) : CommentTracking :=
  s.setCall i call (if delivery.failure = none then .posted id type else .returned false)

def requestStep (i : ℕ) (call : PostCall) (validLines : Option (List ℕ)) (delivery : Delivery) : CommentTracking :=
  match call.comment.request validLines with
  | .create type =>
    (if delivery.carriedOut then s.create call.comment type else s).answer i call delivery s.nextId type
  | .update id type =>
    -- a comment that is not there is an error
    if (s.github.any fun gh => gh.id = id ∧ gh.type = type) then
      (if delivery.carriedOut then s.update call.comment id type else s).answer i call delivery id type
    else s.setCall i call (.returned false)
  | .unknown => s.setCall i call (.returned false)

def step : TrackingEvent → Option CommentTracking
  | .updateComment id content =>
    (s.rows.lookup id).map fun row => { s with rows := s.rows.insert id (row.update content) }
  | .post id => (s.rows.lookup id).map fun comment => { s with calls := s.calls ++ [{ comment }] }
  | .request i validLines delivery =>
    s.calls[i]?.bind fun call =>
      if call.phase = .requesting then some (s.requestStep i call validLines delivery) else none
  | .store i ok =>
    s.calls[i]?.bind fun call =>
      match call.phase with
      | .posted id type =>
        some ((if ok then s.setGithubComment call.comment.id id type else s).setCall i call (.returned ok))
      | _ => none

end CommentTracking

/-! ## Copies of a row -/

/-- The fields that no call changes. -/
structure Comment.Same (comment row : Comment) : Prop where
  id : comment.id = row.id
  path : comment.path = row.path
  span : comment.span = row.span
  author : comment.author = row.author

variable {row : Comment}

theorem Comment.Same.githubBody {comment : Comment} (h : comment.Same row) (type : GitHubCommentType) :
    comment.githubBody type = { row with content := comment.content }.githubBody type := by
  have hlineInfo : comment.lineInfo = { row with content := comment.content }.lineInfo := by
    unfold Comment.lineInfo Comment.startLine
    rw [h.span]
  have hsingle : githubSingleCommentBody comment = githubSingleCommentBody { row with content := comment.content } := by
    simp only [githubSingleCommentBody, h.author]
  cases type with
  | review => exact hsingle
  | issue =>
    simp only [Comment.githubBody, githubIssueCommentBody, hlineInfo, hsingle, h.path]

/-- Bodies of one row differ where the contents do. -/
theorem Comment.githubBody_inj (row : Comment) (content : Text) (type : GitHubCommentType) :
    { row with content }.githubBody type = row.githubBody type ↔ content = row.content := by
  have hsingle : githubSingleCommentBody { row with content } = githubSingleCommentBody row ↔ content = row.content := by
    unfold githubSingleCommentBody
    show (if row.author = .agent then _ else _) = _ ↔ _
    split
    · exact List.append_left_inj _
    · exact Iff.rfl
  cases type with
  | review => exact hsingle
  | issue =>
    show _ ++ _ = _ ++ _ ↔ _
    exact (List.append_right_inj _).trans hsingle

variable {id : ℤ}

/-- A comment with an id on GitHub is updated. -/
theorem Comment.request_eq_update {comment : Comment} {validLines : Option (List ℕ)}
    (h : comment.request validLines = .update id type) :
    comment.githubCommentId = some id ∧ comment.githubCommentType = some type.text := by
  unfold Comment.request at h
  split at h
  next id' type' hid htype =>
    split at h
    next hreview =>
      cases h
      exact ⟨hid, htype.trans (congrArg some hreview)⟩
    next =>
      split at h
      next hissue =>
        cases h
        exact ⟨hid, htype.trans (congrArg some hissue)⟩
      next => cases h
  next =>
    split at h <;> cases h

namespace CommentTracking

/-! ## The invariant -/

section

variable (s : CommentTracking)

/-- The comment on GitHub that a copy of a row refers to. -/
def Tracks (comment : Comment) : Prop :=
  ∀ id, comment.githubCommentId = some id → ∃ gh ∈ s.github, gh.id = id ∧ gh.comment = comment.id ∧
    comment.githubCommentType = some gh.type.text

/-- The call has been told the id of a comment for its row. -/
def Posted (call : PostCall) : Prop :=
  ∀ id type, call.phase = .posted id type → ∃ gh ∈ s.github, gh.id = id ∧ gh.type = type ∧ gh.comment = call.comment.id

structure WF : Prop where
  ids : ∀ gh ∈ s.github, gh.id < s.nextId
  unique : ∀ gh ∈ s.github, ∀ gh' ∈ s.github, gh.id = gh'.id → gh = gh'
  bodies : ∀ gh ∈ s.github, ∀ row, s.rows.lookup gh.comment = some row →
    gh.body = { row with content := gh.content }.githubBody gh.type
  row_id : ∀ id row, s.rows.lookup id = some row → row.id = id
  tracked : ∀ id row, s.rows.lookup id = some row → s.Tracks row
  copies : ∀ call ∈ s.calls, s.Tracks call.comment ∧ ∃ row, s.rows.lookup call.comment.id = some row ∧ call.comment.Same row
  posted : ∀ call ∈ s.calls, s.Posted call

/-- The tracking is truthful. -/
structure Truthful : Prop where
  /-- At most one comment on GitHub was created for a row. -/
  once : ∀ id, s.github.countP (·.comment = id) ≤ 1
  /-- Where a row is not marked as stale, GitHub has the body built from it. -/
  inSync : ∀ id row, s.rows.lookup id = some row → row.githubCommentStale = false →
    ∀ githubId, row.githubCommentId = some githubId →
      ∃ gh ∈ s.github, gh.id = githubId ∧ gh.body = row.githubBody gh.type

/-- GitHub may carry out the request of a call. -/
def Allows (comment : Comment) : GitHubRequest → Prop
  | .create _ => ∀ gh ∈ s.github, gh.comment ≠ comment.id
  | .update id _ => ∀ row ∈ s.rows.lookup comment.id, row.githubCommentStale = false → row.githubCommentId = some id →
      comment.content = row.content
  | .unknown => True

/-- GitHub creates a comment only for a row without one, and changes that of a row in sync only to the content of the
row; a row is marked as in sync only if GitHub has last built the body from its content. -/
def Timely : TrackingEvent → Prop
  | .updateComment _ _ | .post _ => True
  | .request i validLines delivery => delivery.carriedOut = true →
      ∀ call ∈ s.calls[i]?, s.Allows call.comment (call.comment.request validLines)
  | .store i ok => ok = true → ∀ call ∈ s.calls[i]?, ∀ row ∈ s.rows.lookup call.comment.id, ∀ gh ∈ s.github,
      call.phase = .posted gh.id gh.type → gh.content = row.content

instance (comment : Comment) (request : GitHubRequest) : Decidable (s.Allows comment request) :=
  match request with
  | .create _ => inferInstanceAs (Decidable (∀ gh ∈ s.github, gh.comment ≠ comment.id))
  | .update id _ => inferInstanceAs (Decidable (∀ row ∈ s.rows.lookup comment.id, row.githubCommentStale = false →
      row.githubCommentId = some id → comment.content = row.content))
  | .unknown => .isTrue trivial

instance (event : TrackingEvent) : Decidable (s.Timely event) :=
  match event with
  | .updateComment _ _ | .post _ => .isTrue trivial
  | .request i validLines delivery => inferInstanceAs (Decidable (delivery.carriedOut = true →
      ∀ call ∈ s.calls[i]?, s.Allows call.comment (call.comment.request validLines)))
  | .store i ok => inferInstanceAs (Decidable (ok = true → ∀ call ∈ s.calls[i]?,
      ∀ row ∈ s.rows.lookup call.comment.id, ∀ gh ∈ s.github, call.phase = .posted gh.id gh.type → gh.content = row.content))

end

variable {s t : CommentTracking} {i : ℕ} {call : PostCall}

theorem WF.tracked_id (h : s.WF) {id : Text} (hrow : s.rows.lookup id = some row) {githubId : ℤ}
    (hid : row.githubCommentId = some githubId) {gh : GitHubComment} (hgh : gh ∈ s.github) (hgid : gh.id = githubId) :
    gh.comment = id := by
  obtain ⟨gh', hgh', hgid', hcomment, -⟩ := h.tracked id row hrow githubId hid
  rw [h.unique gh hgh gh' hgh' (hgid.trans hgid'.symm), hcomment]
  exact h.row_id id row hrow

/-- Only the calls differ. -/
theorem WF.setCall (h : s.WF) (hcall : s.calls[i]? = some call) {phase : PostPhase}
    (hposted : ∀ id type, phase = .posted id type →
      ∃ gh ∈ s.github, gh.id = id ∧ gh.type = type ∧ gh.comment = call.comment.id) :
    (s.setCall i call phase).WF := by
  have hnew {other : PostCall} (hother : other ∈ s.calls.set i { call with phase }) :
      other ∈ s.calls ∨ other = { call with phase } := List.mem_or_eq_of_mem_set hother
  refine ⟨h.ids, h.unique, h.bodies, h.row_id, h.tracked, fun other hother => ?_, fun other hother => ?_⟩
  · rcases hnew hother with hother | rfl
    · exact h.copies other hother
    · exact h.copies call (List.mem_of_getElem? hcall)
  · rcases hnew hother with hother | rfl
    · exact h.posted other hother
    · exact hposted

/-- How far a call has come does not matter. -/
theorem truthful_setCall {phase : PostPhase} : (s.setCall i call phase).Truthful ↔ s.Truthful :=
  ⟨fun h => ⟨h.once, h.inSync⟩, fun h => ⟨h.once, h.inSync⟩⟩

/-- A row changes, but for the fields of `Same`. -/
theorem WF.setRow (h : s.WF) {id : Text} {new : Comment} (hrow : s.rows.lookup id = some row)
    (hsame : row.Same new) (htracks : s.Tracks new) : WF { s with rows := s.rows.insert id new } := by
  -- a row of now and the one it was
  have hrows {id' : Text} {row' : Comment} (hrow' : (s.rows.insert id new).lookup id' = some row') :
      ∃ old, s.rows.lookup id' = some old ∧ old.Same row' ∧ (row' = old ∨ row' = new) := by
    by_cases hid : id' = id
    · subst hid
      rw [AList.lookup_insert, Option.some.injEq] at hrow'
      subst hrow'
      exact ⟨row, hrow, hsame, .inr rfl⟩
    · rw [AList.lookup_insert_ne hid] at hrow'
      exact ⟨row', hrow', ⟨rfl, rfl, rfl, rfl⟩, .inl rfl⟩
  refine ⟨h.ids, h.unique, fun gh hgh row' hrow' => ?_, fun id' row' hrow' => ?_, fun id' row' hrow' => ?_,
    fun call hcall => ?_, h.posted⟩
  · obtain ⟨old, hold, hsame', -⟩ := hrows hrow'
    rw [h.bodies gh hgh old hold]
    have hsame'' : Comment.Same { old with content := gh.content } row' :=
      ⟨hsame'.id, hsame'.path, hsame'.span, hsame'.author⟩
    exact hsame''.githubBody gh.type
  · obtain ⟨old, hold, hsame', -⟩ := hrows hrow'
    rw [← hsame'.id]
    exact h.row_id id' old hold
  · obtain ⟨old, hold, hsame', rfl | rfl⟩ := hrows hrow'
    · exact h.tracked id' row' hold
    · exact htracks
  · obtain ⟨htracked, old, hold, hcopy⟩ := h.copies call hcall
    refine ⟨htracked, ?_⟩
    by_cases hid : call.comment.id = id
    · refine ⟨new, by rw [hid]; exact AList.lookup_insert _, ?_⟩
      rw [hid, hrow, Option.some.injEq] at hold
      subst hold
      exact ⟨hcopy.id.trans hsame.id, hcopy.path.trans hsame.path, hcopy.span.trans hsame.span,
        hcopy.author.trans hsame.author⟩
    · exact ⟨old, (AList.lookup_insert_ne hid).trans hold, hcopy⟩

/-- GitHub has the same comments as before, with other bodies, and more. -/
theorem WF.tracks_of_github (h : s.WF) {github : List GitHubComment} {nextId : ℕ}
    (hkeeps : ∀ gh ∈ s.github, ∃ gh' ∈ github, gh'.id = gh.id ∧ gh'.type = gh.type ∧ gh'.comment = gh.comment)
    (hids : ∀ gh ∈ github, gh.id < nextId) (hunique : ∀ gh ∈ github, ∀ gh' ∈ github, gh.id = gh'.id → gh = gh')
    (hbodies : ∀ gh ∈ github, ∀ row, s.rows.lookup gh.comment = some row →
      gh.body = { row with content := gh.content }.githubBody gh.type) : WF { s with github, nextId } := by
  have htracks {comment : Comment} (htracks : s.Tracks comment) : Tracks { s with github, nextId } comment := by
    intro id hid
    obtain ⟨gh, hgh, rfl, hcomment, htype⟩ := htracks id hid
    obtain ⟨gh', hgh', hid', htype', hcomment'⟩ := hkeeps gh hgh
    exact ⟨gh', hgh', hid', hcomment'.trans hcomment, htype' ▸ htype⟩
  refine ⟨hids, hunique, hbodies, h.row_id, fun id row hrow => htracks (h.tracked id row hrow), fun call hcall => ?_,
    fun call hcall id type hphase => ?_⟩
  · obtain ⟨htracked, hcopy⟩ := h.copies call hcall
    exact ⟨htracks htracked, hcopy⟩
  · obtain ⟨gh, hgh, rfl, rfl, hcomment⟩ := h.posted call hcall id type hphase
    obtain ⟨gh', hgh', hid', htype', hcomment'⟩ := hkeeps gh hgh
    exact ⟨gh', hgh', hid', htype', hcomment'.trans hcomment⟩

/-! ## Creating a comment -/

/-- A new comment on GitHub gets an id of its own. -/
theorem WF.create (h : s.WF) (hcall : call ∈ s.calls) (type : GitHubCommentType) : (s.create call.comment type).WF := by
  have hmem {gh : GitHubComment} (hgh : gh ∈ (s.create call.comment type).github) :
      gh ∈ s.github ∨ gh = ⟨s.nextId, type, call.comment.id, call.comment.githubBody type, call.comment.content⟩ := by
    rcases List.mem_append.mp hgh with hold | hnew
    · exact .inl hold
    · exact .inr (List.mem_singleton.mp hnew)
  apply h.tracks_of_github
  · exact fun gh hgh => ⟨gh, List.mem_append_left _ hgh, rfl, rfl, rfl⟩
  · intro gh hgh
    rcases hmem hgh with hold | rfl
    · have hlt : gh.id < s.nextId := h.ids gh hold
      push_cast
      omega
    · show (s.nextId : ℤ) < (s.nextId + 1 : ℕ)
      omega
  · intro gh hgh gh' hgh' hid
    rcases hmem hgh with hold | rfl <;> rcases hmem hgh' with hold' | rfl
    · exact h.unique gh hold gh' hold' hid
    · exact absurd hid (Int.ne_of_lt (h.ids gh hold))
    · exact absurd hid.symm (Int.ne_of_lt (h.ids gh' hold'))
    · rfl
  · intro gh hgh row hrow
    rcases hmem hgh with hold | rfl
    · exact h.bodies gh hold row hrow
    · obtain ⟨-, row', hrow', hsame⟩ := h.copies call hcall
      have hrows : row' = row := Option.some.inj (hrow'.symm.trans hrow)
      subst hrows
      exact hsame.githubBody type

/-- A second comment for the same row is the only fault of a creation. -/
theorem truthful_create (hs : s.Truthful) (comment : Comment) (type : GitHubCommentType) :
    (s.create comment type).Truthful ↔ ∀ gh ∈ s.github, gh.comment ≠ comment.id := by
  have hcount (id : Text) : (s.create comment type).github.countP (·.comment = id) =
      s.github.countP (·.comment = id) + if comment.id = id then 1 else 0 := by
    show (s.github ++ [_]).countP _ = _
    rw [List.countP_append, List.countP_singleton]
    simp
  constructor
  · intro ht gh hgh hcomment
    have hone : (s.create comment type).github.countP (·.comment = comment.id) ≤ 1 := ht.once comment.id
    have hpos : 0 < s.github.countP (·.comment = comment.id) :=
      List.countP_pos_iff.mpr ⟨gh, hgh, decide_eq_true hcomment⟩
    rw [hcount, if_pos rfl] at hone
    omega
  · intro hnone
    refine ⟨fun id => ?_, fun id row hrow hstale githubId hid => ?_⟩
    · rw [hcount]
      split
      next hid =>
        subst hid
        have hzero : s.github.countP (·.comment = comment.id) = 0 :=
          List.countP_eq_zero.mpr fun gh hgh hcomment => hnone gh hgh (of_decide_eq_true hcomment)
        omega
      next => exact hs.once id
    · obtain ⟨gh, hgh, hsync⟩ := hs.inSync id row hrow hstale githubId hid
      exact ⟨gh, List.mem_append_left _ hgh, hsync⟩

/-! ## Changing a comment -/

section

variable (comment : Comment) (id : ℤ) (type : GitHubCommentType) (gh : GitHubComment)

@[simp]
theorem setBody_id : (gh.setBody comment id type).id = gh.id := by
  unfold GitHubComment.setBody
  split <;> rfl

@[simp]
theorem setBody_type : (gh.setBody comment id type).type = gh.type := by
  unfold GitHubComment.setBody
  split <;> rfl

@[simp]
theorem setBody_comment : (gh.setBody comment id type).comment = gh.comment := by
  unfold GitHubComment.setBody
  split <;> rfl

end

/-- An update keeps the ids. -/
theorem WF.update (h : s.WF) (hcall : call ∈ s.calls) (hid : call.comment.githubCommentId = some id)
    (type : GitHubCommentType) : (s.update call.comment id type).WF := by
  apply h.tracks_of_github
  · intro gh hgh
    exact ⟨_, List.mem_map_of_mem hgh, setBody_id .., setBody_type .., setBody_comment ..⟩
  · intro gh hgh
    obtain ⟨old, hold, rfl⟩ := List.mem_map.mp hgh
    rw [setBody_id]
    exact h.ids old hold
  · intro gh hgh gh' hgh' hids
    obtain ⟨old, hold, rfl⟩ := List.mem_map.mp hgh
    obtain ⟨old', hold', rfl⟩ := List.mem_map.mp hgh'
    rw [setBody_id, setBody_id] at hids
    rw [h.unique old hold old' hold' hids]
  · intro gh hgh row hrow
    obtain ⟨old, hold, rfl⟩ := List.mem_map.mp hgh
    rw [setBody_comment] at hrow
    rw [GitHubComment.setBody]
    split
    next hupdated =>
      obtain ⟨htracks, row', hrow', hsame⟩ := h.copies call hcall
      obtain ⟨gh', hgh', hgid, hcomment, -⟩ := htracks id hid
      have hgh'' : gh' = old := h.unique gh' hgh' old hold (hgid.trans hupdated.1.symm)
      subst hgh''
      rw [hcomment, hrow', Option.some.injEq] at hrow
      subst hrow
      show call.comment.githubBody type = { row' with content := call.comment.content }.githubBody gh'.type
      rw [hupdated.2]
      exact hsame.githubBody type
    next => exact h.bodies old hold row hrow

/-- An update is right exactly if it writes what the row holds, or the row is marked stale. -/
theorem truthful_update (h : s.WF) (hs : s.Truthful) (hcall : call ∈ s.calls)
    (hid : call.comment.githubCommentId = some id)
    (hgh : ∃ gh ∈ s.github, gh.id = id ∧ gh.type = type) :
    (s.update call.comment id type).Truthful ↔ s.Allows call.comment (.update id type) := by
  obtain ⟨gh, hgh, rfl, rfl⟩ := hgh
  obtain ⟨htracks, row, hrow, hsame⟩ := h.copies call hcall
  -- the comment is that of the row
  have hcomment : gh.comment = call.comment.id := by
    obtain ⟨gh', hgh', hgid, hcomment, -⟩ := htracks gh.id hid
    rw [← h.unique gh' hgh' gh hgh hgid]
    exact hcomment
  have hnew : (gh.setBody call.comment gh.id gh.type).body = call.comment.githubBody gh.type := by
    rw [GitHubComment.setBody, if_pos ⟨rfl, rfl⟩]
  have hbody : call.comment.githubBody gh.type = row.githubBody gh.type ↔ call.comment.content = row.content := by
    rw [hsame.githubBody, Comment.githubBody_inj]
  constructor
  · intro ht row' hrow' hstale hrid
    have hrows : row' = row := Option.some.inj ((Option.mem_def.mp hrow').symm.trans hrow)
    subst hrows
    obtain ⟨gh', hgh', hgid, hsync⟩ := ht.inSync call.comment.id row' hrow hstale gh.id hrid
    obtain ⟨old, hold, rfl⟩ := List.mem_map.mp hgh'
    rw [setBody_id] at hgid
    have hone : old = gh := h.unique old hold gh hgh hgid
    subst hone
    rw [hnew, setBody_type] at hsync
    exact hbody.mp hsync
  · intro hallows
    refine ⟨fun id => ?_, fun id row' hrow' hstale githubId hrid => ?_⟩
    · show (s.github.map _).countP _ ≤ 1
      rw [List.countP_map]
      simpa [Function.comp_def] using hs.once id
    · obtain ⟨old, hold, rfl, hsync⟩ := hs.inSync id row' hrow' hstale githubId hrid
      refine ⟨_, List.mem_map_of_mem hold, setBody_id .., ?_⟩
      rw [setBody_type]
      by_cases hupdated : old = gh
      · subst hupdated
        have hrowid : id = call.comment.id := (h.tracked_id hrow' hrid hold rfl).symm.trans hcomment
        subst hrowid
        have hrows : row' = row := Option.some.inj (hrow'.symm.trans hrow)
        subst hrows
        rw [hnew, hbody]
        exact hallows row' hrow hstale hrid
      · have hne : ¬ (old.id = gh.id ∧ old.type = gh.type) := fun heq => hupdated (h.unique old hold gh hgh heq.1)
        rw [GitHubComment.setBody, if_neg hne]
        exact hsync

/-! ## Changing a row -/

theorem truthful_setRow (hs : s.Truthful) (id : Text) (new : Comment) :
    Truthful { s with rows := s.rows.insert id new } ↔
      (new.githubCommentStale = false → ∀ githubId, new.githubCommentId = some githubId →
        ∃ gh ∈ s.github, gh.id = githubId ∧ gh.body = new.githubBody gh.type) := by
  constructor
  · exact fun ht => ht.inSync id new (AList.lookup_insert _)
  · intro hnew
    refine ⟨hs.once, fun id' row hrow => ?_⟩
    by_cases hid : id' = id
    · subst hid
      rw [AList.lookup_insert, Option.some.injEq] at hrow
      exact hrow ▸ hnew
    · rw [AList.lookup_insert_ne hid] at hrow
      exact hs.inSync id' row hrow

/-- An edit marks the row as stale, if GitHub knows it. -/
theorem truthful_updateComment (hs : s.Truthful) (id content : Text) (row : Comment) :
    Truthful { s with rows := s.rows.insert id (row.update content) } := by
  refine (truthful_setRow hs id _).mpr fun hstale githubId hid => ?_
  have hsome : row.githubCommentId.isSome = false := hstale
  have hrid : row.githubCommentId = some githubId := hid
  rw [hrid] at hsome
  cases hsome

theorem truthful_setGithub (h : s.WF) (hs : s.Truthful) {id : Text} (hrow : s.rows.lookup id = some row)
    {gh : GitHubComment} (hgh : gh ∈ s.github) (hcomment : gh.comment = id) :
    Truthful { s with rows := s.rows.insert id (row.setGithub gh.id gh.type) } ↔ gh.content = row.content := by
  have hbody : gh.body = row.githubBody gh.type ↔ gh.content = row.content := by
    rw [h.bodies gh hgh row (hcomment ▸ hrow), Comment.githubBody_inj]
  rw [truthful_setRow hs, ← hbody]
  constructor
  · intro hsync
    obtain ⟨gh', hgh', hgid, hbody'⟩ := hsync rfl gh.id rfl
    rw [← h.unique gh' hgh' gh hgh hgid]
    exact hbody'
  · intro hsame _ githubId hid
    cases hid
    exact ⟨gh, hgh, rfl, hsame⟩

/-! ## Steps and runs -/

/-- An answer names a comment that is there. -/
theorem WF.answer (h : s.WF) (hcall : s.calls[i]? = some call) {delivery : Delivery}
    (hposted : delivery.failure = none → ∃ gh ∈ s.github, gh.id = id ∧ gh.type = type ∧ gh.comment = call.comment.id) :
    (s.answer i call delivery id type).WF := by
  refine h.setCall hcall fun id' type' hphase => ?_
  split at hphase
  next hanswered =>
    cases hphase
    exact hposted hanswered
  next => cases hphase

theorem WF.requestStep (h : s.WF) (hcall : s.calls[i]? = some call) (validLines : Option (List ℕ)) (delivery : Delivery) :
    (s.requestStep i call validLines delivery).WF := by
  have hmem : call ∈ s.calls := List.mem_of_getElem? hcall
  unfold CommentTracking.requestStep
  split
  next type hrequest =>
    split
    next => exact (h.create hmem type).answer hcall fun _ => ⟨_, List.mem_append_right _ (List.mem_singleton_self _), rfl, rfl, rfl⟩
    next hcarried => exact h.answer hcall fun hanswered => absurd (delivery.carriedOut_of_answered hanswered) hcarried
  next id type hrequest =>
    have hid : call.comment.githubCommentId = some id := (Comment.request_eq_update hrequest).1
    split
    next hany =>
      obtain ⟨gh, hgh, hfound⟩ := List.any_eq_true.mp hany
      obtain ⟨rfl, rfl⟩ := of_decide_eq_true hfound
      obtain ⟨gh', hgh', hgid, hcomment, -⟩ := (h.copies call hmem).1 gh.id hid
      have hone : gh' = gh := h.unique gh' hgh' gh hgh hgid
      subst hone
      split
      next => exact (h.update hmem hid gh'.type).answer hcall fun _ =>
        ⟨_, List.mem_map_of_mem hgh, setBody_id .., setBody_type .., (setBody_comment ..).trans hcomment⟩
      next => exact h.answer hcall fun _ => ⟨gh', hgh, rfl, rfl, hcomment⟩
    next => exact h.setCall hcall fun id' type' hphase => by cases hphase
  next => exact h.setCall hcall fun id' type' hphase => by cases hphase

/-- A request keeps the tracking truthful, exactly if GitHub does not carry it out or may do so. -/
theorem truthful_requestStep (h : s.WF) (hs : s.Truthful) (hcall : s.calls[i]? = some call)
    (validLines : Option (List ℕ)) (delivery : Delivery) :
    (s.requestStep i call validLines delivery).Truthful ↔
      (delivery.carriedOut = true → s.Allows call.comment (call.comment.request validLines)) := by
  have hmem : call ∈ s.calls := List.mem_of_getElem? hcall
  unfold CommentTracking.requestStep
  split
  next type hrequest =>
    rw [hrequest]
    by_cases hcarried : delivery.carriedOut = true
    · rw [if_pos hcarried]
      exact truthful_setCall.trans ((truthful_create hs call.comment type).trans ⟨fun hnone _ => hnone, fun hnone => hnone hcarried⟩)
    · rw [if_neg hcarried]
      exact truthful_setCall.trans ⟨fun _ hcarried' => absurd hcarried' hcarried, fun _ => hs⟩
  next id type hrequest =>
    rw [hrequest]
    have hid : call.comment.githubCommentId = some id := (Comment.request_eq_update hrequest).1
    have htype : call.comment.githubCommentType = some type.text := (Comment.request_eq_update hrequest).2
    split
    next hany =>
      obtain ⟨gh, hgh, hfound⟩ := List.any_eq_true.mp hany
      by_cases hcarried : delivery.carriedOut = true
      · rw [if_pos hcarried]
        exact truthful_setCall.trans ((truthful_update h hs hmem hid ⟨gh, hgh, of_decide_eq_true hfound⟩).trans
          ⟨fun hallows _ => hallows, fun hallows => hallows hcarried⟩)
      · rw [if_neg hcarried]
        exact truthful_setCall.trans ⟨fun _ hcarried' => absurd hcarried' hcarried, fun _ => hs⟩
    next hany =>
      -- the comment of the copy is there
      obtain ⟨gh, hgh, rfl, -, htext⟩ := (h.copies call hmem).1 id hid
      have htypes : gh.type = type := by
        rw [htype, Option.some.injEq] at htext
        exact (GitHubCommentType.text_inj htext).symm
      exact absurd (List.any_eq_true.mpr ⟨gh, hgh, decide_eq_true ⟨rfl, htypes⟩⟩) hany
  next hrequest =>
    rw [hrequest]
    exact truthful_setCall.trans ⟨fun _ _ => trivial, fun _ => hs⟩

theorem WF.step (h : s.WF) {event : TrackingEvent} (hstep : s.step event = some t) : t.WF := by
  cases event with
  | updateComment id content =>
    obtain ⟨row, hrow, rfl⟩ := Option.map_eq_some_iff.mp hstep
    exact h.setRow hrow ⟨rfl, rfl, rfl, rfl⟩ (h.tracked id row hrow)
  | post id =>
    obtain ⟨row, hrow, rfl⟩ := Option.map_eq_some_iff.mp hstep
    have hid : row.id = id := h.row_id id row hrow
    have hnew {call : PostCall} (hcall : call ∈ s.calls ++ [({ comment := row } : PostCall)]) :
        call ∈ s.calls ∨ call = { comment := row } := by
      rcases List.mem_append.mp hcall with hold | hnew
      · exact .inl hold
      · exact .inr (List.mem_singleton.mp hnew)
    refine ⟨h.ids, h.unique, h.bodies, h.row_id, h.tracked, fun call hcall => ?_, fun call hcall => ?_⟩
    · rcases hnew hcall with hold | rfl
      · exact h.copies call hold
      · exact ⟨h.tracked id row hrow, row, hid ▸ hrow, rfl, rfl, rfl, rfl⟩
    · rcases hnew hcall with hold | rfl
      · exact h.posted call hold
      · exact fun id type hphase => by cases hphase
  | request i validLines delivery =>
    obtain ⟨call, hcall, hstep⟩ := Option.bind_eq_some_iff.mp hstep
    split at hstep
    next =>
      cases hstep
      exact h.requestStep hcall validLines delivery
    next => cases hstep
  | store i ok =>
    obtain ⟨call, hcall, hstep⟩ := Option.bind_eq_some_iff.mp hstep
    have hmem : call ∈ s.calls := List.mem_of_getElem? hcall
    split at hstep
    next id type hphase =>
      cases hstep
      obtain ⟨gh, hgh, rfl, rfl, hcomment⟩ := h.posted call hmem id type hphase
      obtain ⟨-, row, hrow, hsame⟩ := h.copies call hmem
      have hset : s.setGithubComment call.comment.id gh.id gh.type =
          { s with rows := s.rows.insert call.comment.id (row.setGithub gh.id gh.type) } := by
        rw [setGithubComment, hrow]
      cases ok with
      | false => exact h.setCall hcall fun id type hphase => by cases hphase
      | true =>
        rw [if_pos rfl, hset]
        -- the row gets the id that GitHub has given, with the content that was posted
        have hmid : WF { s with rows := s.rows.insert call.comment.id (row.setGithub gh.id gh.type) } := by
          refine h.setRow hrow ⟨rfl, rfl, rfl, rfl⟩ fun id hid => ?_
          cases hid
          exact ⟨gh, hgh, rfl, hcomment.trans hsame.id, rfl⟩
        exact hmid.setCall hcall fun id type hphase => by cases hphase
    next => cases hstep

/-- Which steps keep the tracking truthful. -/
theorem step_truthful_iff (h : s.WF) (hs : s.Truthful) {event : TrackingEvent} (hstep : s.step event = some t) :
    t.Truthful ↔ s.Timely event := by
  cases event with
  | updateComment id content =>
    obtain ⟨row, -, rfl⟩ := Option.map_eq_some_iff.mp hstep
    exact ⟨fun _ => trivial, fun _ => truthful_updateComment hs id content row⟩
  | post id =>
    obtain ⟨row, -, rfl⟩ := Option.map_eq_some_iff.mp hstep
    exact ⟨fun _ => trivial, fun _ => ⟨hs.once, hs.inSync⟩⟩
  | request i validLines delivery =>
    obtain ⟨call, hcall, hstep⟩ := Option.bind_eq_some_iff.mp hstep
    split at hstep
    next =>
      cases hstep
      refine (truthful_requestStep h hs hcall validLines delivery).trans (imp_congr_right fun _ => ?_)
      simp [hcall]
    next => cases hstep
  | store i ok =>
    obtain ⟨call, hcall, hstep⟩ := Option.bind_eq_some_iff.mp hstep
    have hmem : call ∈ s.calls := List.mem_of_getElem? hcall
    split at hstep
    next id type hphase =>
      cases hstep
      obtain ⟨gh, hgh, rfl, rfl, hcomment⟩ := h.posted call hmem id type hphase
      obtain ⟨-, row, hrow, -⟩ := h.copies call hmem
      refine truthful_setCall.trans ?_
      cases ok with
      | false => exact ⟨fun _ hok => Bool.noConfusion hok, fun _ => hs⟩
      | true =>
        rw [if_pos rfl, setGithubComment, hrow]
        refine (truthful_setGithub h hs hrow hgh hcomment).trans ⟨fun hcontent _ => ?_, fun htimely => ?_⟩
        · intro call' hcall' row' hrow' gh' hgh' hphase'
          rw [hcall, Option.mem_some_iff] at hcall'
          subst hcall'
          rw [hrow, Option.mem_some_iff] at hrow'
          subst hrow'
          -- the answer that is stored is the one that came
          have hids : gh.id = gh'.id := by
            rw [hphase] at hphase'
            injection hphase'
          rw [← h.unique gh hgh gh' hgh' hids]
          exact hcontent
        · exact htimely rfl call (Option.mem_def.mpr hcall) row (Option.mem_def.mpr hrow) gh hgh hphase
    next => cases hstep

/-- A run keeps the tracking truthful in every state, exactly if all its steps may be taken. -/
theorem run_truthful_iff (h : s.WF) (hs : s.Truthful) {events : List TrackingEvent} (hrun : run step s events = some t) :
    (∀ pre post u, events = pre ++ post → run step s pre = some u → u.Truthful) ↔ Along step Timely s events :=
  forall_prefix_iff_along (fun _ _ _ h hstep => h.step hstep) (fun _ _ _ h hs hstep => step_truthful_iff h hs hstep) h hs hrun

/-! ## Rows that are not posted yet -/

/-- Rows that were never posted are well formed. -/
theorem wf_of_unposted {rows : Table Text Comment} (hid : ∀ id row, rows.lookup id = some row → row.id = id)
    (hnone : ∀ id row, rows.lookup id = some row → row.githubCommentId = none) : WF { rows } := by
  refine ⟨List.forall_mem_nil _, List.forall_mem_nil _, List.forall_mem_nil _, hid,
    fun id row hrow githubId hsome => ?_, List.forall_mem_nil _, List.forall_mem_nil _⟩
  rw [hnone id row hrow] at hsome
  cases hsome

/-- Rows that were never posted claim nothing. -/
theorem truthful_of_unposted {rows : Table Text Comment}
    (hnone : ∀ id row, rows.lookup id = some row → row.githubCommentId = none) : Truthful { rows } := by
  refine ⟨fun id => Nat.zero_le 1, fun id row hrow _ githubId hsome => ?_⟩
  rw [hnone id row hrow] at hsome
  cases hsome

/-- One row that is not posted. -/
def unposted : Table Text Comment :=
  AList.insert ['c'] { id := ['c'], path := ['p'], span := ⟨0, 1⟩, content := ['x'] } ∅

theorem unposted_row (id : Text) (row : Comment) (hrow : unposted.lookup id = some row) :
    row.id = id ∧ row.githubCommentId = none := by
  by_cases hid : id = ['c']
  · subst hid
    rw [unposted, AList.lookup_insert] at hrow
    cases hrow
    exact ⟨rfl, rfl⟩
  · rw [unposted, AList.lookup_insert_ne hid, AList.lookup_empty] at hrow
    cases hrow

/-- A comment is edited, posted, edited and posted again. -/
theorem run_truthful_iff_reposted :
    ∃ t, run step { rows := unposted } [.updateComment ['c'] ['y'], .post ['c'], .request 0 none .answered, .store 0 true,
        .updateComment ['c'] ['z'], .post ['c'], .request 1 none .answered, .store 1 true] = some t ∧
      t.github = [⟨0, .review, ['c'], ['z'], ['z']⟩] ∧
      ∀ pre post u, [TrackingEvent.updateComment ['c'] ['y'], .post ['c'], .request 0 none .answered, .store 0 true,
          .updateComment ['c'] ['z'], .post ['c'], .request 1 none .answered, .store 1 true] = pre ++ post →
        run step { rows := unposted } pre = some u → u.Truthful := by
  obtain ⟨t, hrun, hgithub⟩ := exists_run_of_any
    (show (run step { rows := unposted } [.updateComment ['c'] ['y'], .post ['c'], .request 0 none .answered, .store 0 true,
        .updateComment ['c'] ['z'], .post ['c'], .request 1 none .answered, .store 1 true]).any
      (fun t => decide (t.github = [⟨0, .review, ['c'], ['z'], ['z']⟩])) = true by decide)
  refine ⟨t, hrun, of_decide_eq_true hgithub, ?_⟩
  exact (run_truthful_iff (wf_of_unposted (fun id row hrow => (unposted_row id row hrow).1) fun id row hrow => (unposted_row id row hrow).2)
    (truthful_of_unposted fun id row hrow => (unposted_row id row hrow).2) hrun).mpr (by decide)

/-- Two calls with copies from before the first post create two comments; an edit between the copy and the answer is
forgotten. -/
theorem run_untruthful :
    (∃ t, run step { rows := unposted } [.post ['c'], .post ['c'], .request 0 none .answered, .request 1 none .answered,
        .store 0 true, .store 1 true] = some t ∧ ¬ t.Truthful) ∧
    ∃ t, run step { rows := unposted } [.post ['c'], .updateComment ['c'] ['y'], .request 0 none .answered,
        .store 0 true] = some t ∧ ¬ t.Truthful := by
  constructor
  · obtain ⟨t, hrun, htwo⟩ := exists_run_of_any
      (show (run step { rows := unposted } [.post ['c'], .post ['c'], .request 0 none .answered, .request 1 none .answered,
          .store 0 true, .store 1 true]).any (fun t => decide (t.github.countP (·.comment = ['c']) = 2)) = true by
            decide)
    refine ⟨t, hrun, fun htruthful => ?_⟩
    have hone : t.github.countP (·.comment = ['c']) ≤ 1 := htruthful.once ['c']
    rw [of_decide_eq_true htwo] at hone
    omega
  · obtain ⟨t, hrun, hstale⟩ := exists_run_of_any
      (show (run step { rows := unposted } [.post ['c'], .updateComment ['c'] ['y'], .request 0 none .answered,
          .store 0 true]).any (fun t => decide (t.github = [⟨0, .review, ['c'], ['x'], ['x']⟩] ∧
            t.rows.lookup ['c'] = some ⟨['c'], ['p'], ⟨0, 1⟩, ['y'], .user, some 0, some "review".toList, false⟩)) = true by
            decide)
    obtain ⟨hgithub, hrow⟩ := of_decide_eq_true hstale
    refine ⟨t, hrun, fun htruthful => ?_⟩
    obtain ⟨gh, hgh, -, hbody⟩ := htruthful.inSync ['c'] _ hrow rfl 0 rfl
    rw [hgithub, List.mem_singleton] at hgh
    subst hgh
    exact absurd hbody (by decide)

end CommentTracking

end Builderbot.Staged
