import Builderbot.Lib.Forest
import Builderbot.Penpal.CommentStore
import Mathlib.Data.List.Sort

/-!
# The order of the comments of a thread

`OrderComments` of `apps/penpal/internal/comments/ordering.go` lists a thread as a forest: comments that
answer no comment of the thread are its roots, and each comment is followed by the comments that answer it.
Siblings are sorted by time. `sort.Slice` is not stable, so that the order of siblings with the same time is
not fixed; the model takes any sort.

The walk is cut off after a number of nested calls. For the threads that the store can make it ends, and
`orderComments_spec` says what it gives.
-/

namespace Builderbot.Penpal.Comments

open Lib Lib.Forest

/-- `effectiveTime`. -/
def Comment.effectiveTime (c : Comment) : ℤ := c.workingStartedAt.getD c.createdAt

def byTime (a b : Comment) : Bool := a.effectiveTime < b.effectiveTime

/-- `sort.Slice` with `byTime`. -/
structure SortSlice where
  sort : List Comment → List Comment
  perm : ∀ l, (sort l).Perm l
  sorted : ∀ l, (sort l).Pairwise fun a b => byTime b a = false

/-- The comment answers a comment of the thread. -/
def hasParent (comments : List Comment) (c : Comment) : Bool :=
  c.inReplyTo ≠ [] && comments.any fun p => p.id = c.inReplyTo

section

variable (sort : SortSlice)

/-- `children[id]` after the loops. -/
def children (comments : List Comment) (id : Bytes) : List Comment :=
  sort.sort (comments.filter fun c => hasParent comments c && c.inReplyTo = id)

/-- `roots` after the loops. -/
def roots (comments : List Comment) : List Comment :=
  sort.sort (comments.filter fun c => !hasParent comments c)

/-- `walk`, for at most `fuel` nested calls. -/
def walk (comments : List Comment) : ℕ → Bytes → List Comment → Option (List Comment)
  | 0, _, _ => none
  | fuel + 1, id, result =>
    (children sort comments id).foldlM (fun result c => walk comments fuel c.id (result ++ [c])) result

/-- `OrderComments`. -/
def orderComments (fuel : ℕ) (comments : List Comment) : Option (List Comment) :=
  if comments.length ≤ 1 then some comments
  else (roots sort comments).foldlM (fun result r => walk sort comments fuel r.id (result ++ [r])) []

end

/-! ## What the order is -/

/-- The comment `c` of the thread answers its comment `p`. -/
def Answers (comments : List Comment) (p c : Comment) : Prop := p ∈ comments ∧ c ∈ comments ∧ c.inReplyTo = p.id

/-- The comment is a root of the thread. -/
def IsRoot (comments : List Comment) (c : Comment) : Prop := ∀ p, ¬ Answers comments p c

/-- A thread in order. -/
structure Ordered (comments result : List Comment) : Prop where
  perm : result.Perm comments
  /-- A comment stands behind the comment that it answers. -/
  afterParent : ∀ {i j : ℕ} {p c : Comment}, result[i]? = some p → result[j]? = some c → Answers comments p c → i < j
  /-- What answers a comment, directly or not, stands right behind it. -/
  contiguous : ∀ p ∈ comments, ∃ before below after, result = before ++ p :: (below ++ after) ∧
    ∀ c, c ∈ below ↔ Relation.TransGen (Answers comments) p c
  siblings : ∀ {i j : ℕ} {p c d : Comment}, result[i]? = some c → result[j]? = some d → Answers comments p c →
    Answers comments p d → i < j → c.effectiveTime ≤ d.effectiveTime
  roots : ∀ {i j : ℕ} {c d : Comment}, result[i]? = some c → result[j]? = some d → IsRoot comments c →
    IsRoot comments d → i < j → c.effectiveTime ≤ d.effectiveTime

/-! ## The walk lists a forest -/

variable {c p : Comment}

section

variable {sort : SortSlice} {comments : List Comment}

theorem hasParent_iff (h : Grounded comments) :
    hasParent comments c = true ↔ ∃ p ∈ comments, c.inReplyTo = p.id := by
  rw [hasParent, Bool.and_eq_true, decide_eq_true_iff, List.any_eq_true]
  constructor
  · rintro ⟨-, p, hp, hid⟩
    exact ⟨p, hp, (of_decide_eq_true hid).symm⟩
  · rintro ⟨p, hp, hid⟩
    exact ⟨hid ▸ (h.self p hp).1, p, hp, decide_eq_true hid.symm⟩

theorem mem_children (h : Grounded comments) (hp : p ∈ comments) :
    c ∈ children sort comments p.id ↔ Answers comments p c := by
  rw [children, (sort.perm _).mem_iff, List.mem_filter, Bool.and_eq_true, hasParent_iff h, decide_eq_true_iff]
  constructor
  · rintro ⟨hc, -, hid⟩
    exact ⟨hp, hc, hid⟩
  · rintro ⟨-, hc, hid⟩
    exact ⟨hc, ⟨p, hp, hid⟩, hid⟩

theorem mem_children_imp {id : Bytes} (h : c ∈ children sort comments id) :
    c ∈ comments ∧ hasParent comments c = true ∧ c.inReplyTo = id := by
  rw [children, (sort.perm _).mem_iff, List.mem_filter, Bool.and_eq_true, decide_eq_true_iff] at h
  exact h

theorem mem_roots (h : Grounded comments) : c ∈ roots sort comments ↔ c ∈ comments ∧ IsRoot comments c := by
  rw [roots, (sort.perm _).mem_iff, List.mem_filter, Bool.not_eq_true', ← Bool.not_eq_true, hasParent_iff h]
  refine and_congr_right fun hc => ?_
  constructor
  · rintro hno p ⟨hp, -, hid⟩
    exact hno ⟨p, hp, hid⟩
  · rintro hroot ⟨p, hp, hid⟩
    exact hroot p ⟨hp, hc, hid⟩

theorem Grounded.nodup (h : Grounded comments) : comments.Nodup :=
  h.earlier.imp fun hne heq => hne.1 (congrArg Comment.id heq)

theorem Grounded.eq_of_id (h : Grounded comments) {a b : Comment} (ha : a ∈ comments) (hb : b ∈ comments)
    (hid : a.id = b.id) : a = b := by
  have hpairwise : (comments.map Comment.id).Nodup := List.pairwise_map.mpr (h.earlier.imp fun hne => hne.1)
  exact List.inj_on_of_nodup_map hpairwise ha hb hid

/-- A comment is answered later. -/
theorem Grounded.idxOf_lt (h : Grounded comments) (hanswers : Answers comments p c) :
    comments.idxOf p < comments.idxOf c := by
  obtain ⟨hp, hc, hid⟩ := hanswers
  have hplt := List.idxOf_lt_length_of_mem hp
  have hclt := List.idxOf_lt_length_of_mem hc
  by_contra hle
  rcases Nat.lt_or_eq_of_le (Nat.le_of_not_lt hle) with hlt | heq
  · have hpair := List.pairwise_iff_getElem.mp h.earlier _ _ hclt hplt hlt
    rw [List.getElem_idxOf hclt, List.getElem_idxOf hplt] at hpair
    exact hpair.2 hid
  · have hsame : c = p := by rw [← List.getElem_idxOf hclt, ← List.getElem_idxOf hplt]; simp [heq]
    exact (h.self c hc).2 (hsame ▸ hid)

/-- Enough nested calls list the trees below. -/
theorem exists_walk (h : Grounded comments) {fuel : ℕ} {l : List Comment}
    (hl : ∀ a ∈ l, a ∈ comments ∧ comments.length - comments.idxOf a ≤ fuel) (result : List Comment) :
    ∃ w, DepthFirst Comment.id (children sort comments) l w ∧
      l.foldlM (fun result c => walk sort comments fuel c.id (result ++ [c])) result = some (result ++ w) := by
  induction fuel generalizing l result with
  | zero =>
    cases l with
    | nil => exact ⟨[], .nil, by rw [List.append_nil]; rfl⟩
    | cons a l =>
      obtain ⟨ha, hle⟩ := hl a List.mem_cons_self
      have hlt := List.idxOf_lt_length_of_mem ha
      omega
  | succ fuel ih =>
    induction l generalizing result with
    | nil => exact ⟨[], .nil, by rw [List.append_nil]; rfl⟩
    | cons a l ihl =>
      obtain ⟨ha, hle⟩ := hl a List.mem_cons_self
      have hbelow : ∀ c ∈ children sort comments a.id,
          c ∈ comments ∧ comments.length - comments.idxOf c ≤ fuel := by
        intro c hc
        have hanswers := (mem_children h ha).mp hc
        have hlt := h.idxOf_lt hanswers
        exact ⟨hanswers.2.1, by omega⟩
      obtain ⟨below, htrees, hwalk⟩ := ih hbelow (result ++ [a])
      obtain ⟨rest, hrest, hfold⟩ := ihl (fun b hb => hl b (List.mem_cons_of_mem a hb)) (result ++ [a] ++ below)
      refine ⟨a :: (below ++ rest), .cons htrees hrest, ?_⟩
      rw [List.foldlM_cons, walk, hwalk]
      show l.foldlM _ (result ++ [a] ++ below) = _
      rw [hfold]
      simp only [List.append_assoc, List.cons_append, List.nil_append]

/-! ## The listing is in order -/

section Listing

variable {w : List Comment}

theorem mem_of_listed (h : Grounded comments)
    (hw : DepthFirst Comment.id (children sort comments) (roots sort comments) w) (hc : c ∈ w) :
    c ∈ comments := by
  obtain ⟨r, hr, hpath⟩ := (hw.mem_iff c).mp hc
  rcases Relation.ReflTransGen.cases_tail hpath with rfl | ⟨b, -, hchild⟩
  · exact ((mem_roots h).mp hr).1
  · exact (mem_children_imp hchild).1

/-- A comment is among the answers to its parent, and to no other comment. -/
theorem count_children (h : Grounded comments) {x : Comment} (hanswers : Answers comments p c) (hx : x ∈ comments) :
    (children sort comments x.id).count c = if x = p then 1 else 0 := by
  by_cases heq : x = p
  · subst heq
    have hnodup : (children sort comments x.id).Nodup := (sort.perm _).nodup_iff.mpr (h.nodup.filter _)
    rw [if_pos rfl]
    exact List.count_eq_one_of_mem hnodup ((mem_children h hx).mpr hanswers)
  · rw [if_neg heq]
    refine List.count_eq_zero_of_not_mem fun hc => heq ?_
    have hid := (mem_children_imp hc).2.2
    exact h.eq_of_id hx hanswers.1 (hid.symm.trans hanswers.2.2)

theorem count_listed (h : Grounded comments)
    (hw : DepthFirst Comment.id (children sort comments) (roots sort comments) w) (hc : c ∈ comments) :
    w.count c = 1 := by
  induction hn : comments.idxOf c using Nat.strong_induction_on generalizing c with
  | h n ih =>
    have hnodup : (roots sort comments).Nodup := (sort.perm _).nodup_iff.mpr (h.nodup.filter _)
    by_cases hroot : IsRoot comments c
    · have hnot : ∀ x, c ∉ children sort comments (Comment.id x) := by
        intro x hx
        obtain ⟨p, hp, hid⟩ := (hasParent_iff h).mp (mem_children_imp hx).2.1
        exact hroot p ⟨hp, hc, hid⟩
      rw [hw.count_root hnot]
      exact List.count_eq_one_of_mem hnodup ((mem_roots h).mpr ⟨hc, hroot⟩)
    · obtain ⟨p, hanswers⟩ := not_forall_not.mp hroot
      have hcount := hw.count_eq (c := c) (p := p) fun x hx => count_children h hanswers (mem_of_listed h hw hx)
      have hparent := ih _ (hn ▸ h.idxOf_lt hanswers) hanswers.1 rfl
      have hnotRoot : (roots sort comments).count c = 0 :=
        List.count_eq_zero_of_not_mem fun hmem => hroot ((mem_roots h).mp hmem).2
      omega

theorem perm_listed (h : Grounded comments)
    (hw : DepthFirst Comment.id (children sort comments) (roots sort comments) w) : w.Perm comments := by
  rw [List.perm_iff_count]
  intro c
  by_cases hc : c ∈ comments
  · rw [count_listed h hw hc, List.count_eq_one_of_mem h.nodup hc]
  · rw [List.count_eq_zero_of_not_mem hc]
    exact List.count_eq_zero_of_not_mem fun hmem => hc (mem_of_listed h hw hmem)

/-- What is below a comment are its answers and theirs. -/
theorem mem_below (h : Grounded comments) (hp : p ∈ comments) {below : List Comment}
    (hbelow : DepthFirst Comment.id (children sort comments) (children sort comments p.id) below) (c : Comment) :
    c ∈ below ↔ Relation.TransGen (Answers comments) p c := by
  rw [hbelow.mem_iff, Relation.TransGen.head'_iff]
  have hpaths : ∀ {r : Comment}, r ∈ comments →
      (Relation.ReflTransGen (IsChild Comment.id (children sort comments)) r c ↔
        Relation.ReflTransGen (Answers comments) r c) := by
    intro r hr
    constructor
    · intro hpath
      induction hpath using Relation.ReflTransGen.head_induction_on with
      | refl => exact .refl
      | @head a b hchild _ ih => exact .head ((mem_children h hr).mp hchild) (ih (mem_children_imp hchild).1)
    · intro hpath
      induction hpath using Relation.ReflTransGen.head_induction_on with
      | refl => exact .refl
      | @head a b hanswers _ ih => exact .head ((mem_children h hr).mpr hanswers) (ih hanswers.2.1)
  constructor
  · rintro ⟨r, hr, hpath⟩
    have hanswers := (mem_children h hp).mp hr
    exact ⟨r, hanswers, (hpaths hanswers.2.1).mp hpath⟩
  · rintro ⟨r, hanswers, hpath⟩
    exact ⟨r, (mem_children h hp).mpr hanswers, (hpaths hanswers.2.1).mpr hpath⟩

/-- Comments that are sorted together keep that order. -/
theorem sorted_of_sublist (hperm : w.Perm comments) {p : Comment → Bool}
    (hsub : (sort.sort (comments.filter p)).Sublist w) :
    w.Pairwise fun a b => p a = true → p b = true → a.effectiveTime ≤ b.effectiveTime := by
  have hall : (sort.sort (comments.filter p)).filter p = sort.sort (comments.filter p) := by
    refine List.filter_eq_self.mpr fun a ha => ?_
    exact (List.mem_filter.mp ((sort.perm _).mem_iff.mp ha)).2
  have heq : sort.sort (comments.filter p) = w.filter p := by
    refine List.Sublist.eq_of_length (hall ▸ hsub.filter p) ?_
    rw [(sort.perm _).length_eq, (hperm.filter p).length_eq]
  rw [← List.pairwise_filter, ← heq]
  refine (sort.sorted _).imp fun {a b} hab => ?_
  exact Int.not_lt.mp (of_decide_eq_false hab)

theorem ordered_of_depthFirst (h : Grounded comments)
    (hw : DepthFirst Comment.id (children sort comments) (roots sort comments) w) : Ordered comments w := by
  have hperm := perm_listed h hw
  have hnodup : w.Nodup := hperm.nodup_iff.mpr h.nodup
  have hblock : ∀ p ∈ comments, ∃ before below after, w = before ++ p :: (below ++ after) ∧
      DepthFirst Comment.id (children sort comments) (children sort comments p.id) below :=
    fun p hp => hw.exists_block (hperm.mem_iff.mpr hp)
  have hsorted : ∀ {p : Comment → Bool}, (sort.sort (comments.filter p)).Sublist w → ∀ {i j : ℕ} {c d : Comment},
      w[i]? = some c → w[j]? = some d → p c = true → p d = true → i < j → c.effectiveTime ≤ d.effectiveTime := by
    intro p hsub i j c d hi hj hc hd hlt
    obtain ⟨hi', rfl⟩ := List.getElem?_eq_some_iff.mp hi
    obtain ⟨hj', rfl⟩ := List.getElem?_eq_some_iff.mp hj
    exact List.pairwise_iff_getElem.mp (sorted_of_sublist hperm hsub) i j hi' hj' hlt hc hd
  refine ⟨hperm, ?_, ?_, ?_, ?_⟩
  -- an answer is in the block below its comment
  · intro i j p c hi hj hanswers
    obtain ⟨before, below, after, hsplit, hbelow⟩ := hblock p hanswers.1
    have hc : c ∈ below := hbelow.sublist.mem ((mem_children h hanswers.1).mpr hanswers)
    obtain ⟨k, hk⟩ := List.mem_iff_getElem?.mp hc
    have hklt : k < below.length := (List.getElem?_eq_some_iff.mp hk).1
    have hp' : w[before.length]? = some p := by rw [hsplit]; simp
    have hc' : w[before.length + (k + 1)]? = some c := by
      rw [hsplit, List.getElem?_append_right (Nat.le_add_right _ _), Nat.add_sub_cancel_left, List.getElem?_cons_succ,
        List.getElem?_append_left hklt, hk]
    have hi' := (List.getElem?_inj (List.getElem?_eq_some_iff.mp hi).1 hnodup).mp (hi.trans hp'.symm)
    have hj' := (List.getElem?_inj (List.getElem?_eq_some_iff.mp hj).1 hnodup).mp (hj.trans hc'.symm)
    omega
  · intro p hp
    obtain ⟨before, below, after, hsplit, hbelow⟩ := hblock p hp
    exact ⟨before, below, after, hsplit, mem_below h hp hbelow⟩
  · intro i j p c d hi hj hc hd hlt
    obtain ⟨before, below, after, hsplit, hbelow⟩ := hblock p hc.1
    have hsub : (children sort comments p.id).Sublist w := by
      rw [hsplit]
      exact hbelow.sublist.trans ((List.sublist_append_left below after).trans
        ((List.sublist_cons_self p _).trans (List.sublist_append_right before _)))
    have hanswers : ∀ {e : Comment}, Answers comments p e → (hasParent comments e && e.inReplyTo = p.id) = true := by
      intro e he
      rw [Bool.and_eq_true, hasParent_iff h, decide_eq_true_iff]
      exact ⟨⟨p, he.1, he.2.2⟩, he.2.2⟩
    exact hsorted hsub hi hj (hanswers hc) (hanswers hd) hlt
  · intro i j c d hi hj hc hd hlt
    -- roots come in one sorted list, as the answers to one comment do
    have hroot : ∀ {e : Comment}, e ∈ w → IsRoot comments e → (!hasParent comments e) = true := by
      intro e he hroot
      rw [Bool.not_eq_true', ← Bool.not_eq_true, hasParent_iff h]
      rintro ⟨p, hp, hid⟩
      exact hroot p ⟨hp, hperm.mem_iff.mp he, hid⟩
    exact hsorted hw.sublist hi hj (hroot (List.mem_of_getElem? hi) hc) (hroot (List.mem_of_getElem? hj) hd) hlt

end Listing

/-- A thread whose comments answer earlier ones is put in order, with any number of nested calls from the
number of comments on. -/
theorem orderComments_of_grounded (h : Grounded comments) :
    ∃ result, Ordered comments result ∧
      ∀ fuel, comments.length ≤ fuel → orderComments sort fuel comments = some result := by
  have hroots : ∀ fuel, comments.length ≤ fuel → ∀ a ∈ roots sort comments,
      a ∈ comments ∧ comments.length - comments.idxOf a ≤ fuel :=
    fun fuel hfuel a ha => ⟨((mem_roots h).mp ha).1, by omega⟩
  obtain ⟨w, hw, -⟩ := exists_walk h (hroots _ le_rfl) []
  refine ⟨w, ordered_of_depthFirst h hw, fun fuel hfuel => ?_⟩
  rw [orderComments]
  split
  case isTrue hshort =>
    have hperm := perm_listed h hw
    match comments, hshort with
    | [], _ => rw [List.perm_nil.mp hperm]
    | [c], _ => rw [List.perm_singleton.mp hperm]
  case isFalse =>
    obtain ⟨w', hw', hwalk⟩ := exists_walk h (hroots fuel hfuel) []
    rw [hwalk, List.nil_append, hw.unique hw']

end

/-- Every thread that the store can make, from sidecars of any age, is put in order. -/
theorem orderComments_spec (sort : SortSlice) {fc fc' : FileComments} {calls : List StoreCall} (hlegacy : fc.Legacy)
    (hrun : run FileComments.step fc calls = some fc') {t : Thread} (ht : t ∈ fc'.threads) :
    ∃ result, Ordered t.comments result ∧
      ∀ fuel, t.comments.length ≤ fuel → orderComments sort fuel t.comments = some result :=
  orderComments_of_grounded (FileComments.run_inv hlegacy hrun t ht)

/-! ## A thread with replies that overtake each other -/

/-- A stable sort. -/
def stableSort : SortSlice where
  sort := List.insertionSort fun a b => a.effectiveTime ≤ b.effectiveTime
  perm := List.perm_insertionSort _
  sorted l := by
    have : Std.Total fun a b : Comment => a.effectiveTime ≤ b.effectiveTime := ⟨fun a b => le_total _ _⟩
    have : IsTrans Comment fun a b => a.effectiveTime ≤ b.effectiveTime := ⟨fun _ _ _ => le_trans⟩
    exact (List.pairwise_insertionSort _ l).imp fun hle => decide_eq_false (not_lt.mpr hle)

/-- An id of one letter eight times. -/
def idOf (letter : Char) : Bytes := Utf8.encode (List.replicate 8 letter)

/-- What a caller passes for a comment. -/
def draft (inReplyTo : Bytes) (workingStartedAt : Option ℤ) : Comment where
  id := []
  body := Utf8.encode ['x']
  createdAt := 0
  inReplyTo
  workingStartedAt

/-- The second comment answers the first one, and so does the third one, which was begun before the second. -/
def overtakenCalls : List StoreCall :=
  [.createThread ⟨[65], [], [], 1⟩ (draft [] none) (idOf 'a') (idOf 't') 1,
    .addComment (idOf 't') (draft [] none) (idOf 'b') 3,
    .addComment (idOf 't') (draft (idOf 'a') (some 2)) (idOf 'c') 4]

def overtakenThread : Thread where
  id := idOf 't'
  status := .opened
  anchor := ⟨[65], [], [], 1⟩
  comments :=
    [{ draft [] none with id := idOf 'a', createdAt := 1 },
      { draft (idOf 'a') none with id := idOf 'b', createdAt := 3 },
      { draft (idOf 'a') (some 2) with id := idOf 'c', createdAt := 4 }]
  createdAt := 1
  resolvedAt := none
  resolvedBy := []

theorem orderComments_spec_overtaken :
    ∃ result, Ordered overtakenThread.comments result ∧
      ∀ fuel, overtakenThread.comments.length ≤ fuel →
        orderComments stableSort fuel overtakenThread.comments = some result :=
  @orderComments_spec stableSort {} ⟨[overtakenThread]⟩ overtakenCalls (fun t ht => by cases ht) (by decide +kernel)
    overtakenThread (List.mem_singleton_self _)

end Builderbot.Penpal.Comments
