import Mathlib.Data.List.Count
import Mathlib.Data.List.Perm.Basic

/-!
# Depth-first listings

A forest is given by the children of each node, which are looked up by the node's key. A list of nodes is
the depth-first listing of a list of trees when each node is followed by the trees of its children. A
listing counts a node as often as its parent, so that a forest in which every node is once a root or once a
child is listed without repetition; the trees below a node are contiguous, and children keep their order.
-/

namespace Builderbot.Lib.Forest

variable {α κ : Type*} {key : α → κ} {children : κ → List α}

/-- The listing of the trees with the given roots. -/
inductive DepthFirst (key : α → κ) (children : κ → List α) : List α → List α → Prop
  | nil : DepthFirst key children [] []
  | cons {a : α} {l below rest : List α} (hbelow : DepthFirst key children (children (key a)) below)
      (hrest : DepthFirst key children l rest) : DepthFirst key children (a :: l) (a :: (below ++ rest))

/-- The node `c` is a child of `a`. -/
def IsChild (key : α → κ) (children : κ → List α) (a c : α) : Prop := c ∈ children (key a)

namespace DepthFirst

variable {l l' w w' : List α}

/-- The roots are listed in their order. -/
theorem sublist (h : DepthFirst key children l w) : l.Sublist w := by
  induction h with
  | nil => exact .slnil
  | @cons a _ below _ _ _ _ ih => exact (ih.trans (List.sublist_append_right below _)).cons_cons a

theorem unique (h : DepthFirst key children l w) (h' : DepthFirst key children l w') : w = w' := by
  induction h generalizing w' with
  | nil =>
    cases h'
    rfl
  | cons _ _ ihbelow ihrest =>
    cases h' with
    | cons hbelow' hrest' => rw [ihbelow hbelow', ihrest hrest']

/-- What is listed is below a root, or a root. -/
theorem mem_iff (h : DepthFirst key children l w) (c : α) :
    c ∈ w ↔ ∃ r ∈ l, Relation.ReflTransGen (IsChild key children) r c := by
  induction h with
  | nil => simp
  | @cons a l below rest _ _ ihbelow ihrest =>
    rw [List.mem_cons, List.mem_append, ihbelow, ihrest]
    have hroot : Relation.ReflTransGen (IsChild key children) a c ↔
        c = a ∨ ∃ r ∈ children (key a), Relation.ReflTransGen (IsChild key children) r c :=
      Relation.ReflTransGen.cases_head_iff.trans (or_congr eq_comm Iff.rfl)
    simp only [List.mem_cons, exists_eq_or_imp, hroot, or_assoc]

/-- The trees below a node follow it. -/
theorem exists_block (h : DepthFirst key children l w) {p : α} (hp : p ∈ w) :
    ∃ before below after, w = before ++ p :: (below ++ after) ∧ DepthFirst key children (children (key p)) below := by
  induction h with
  | nil => cases hp
  | @cons a l below rest hbelow hrest ihbelow ihrest =>
    rw [List.mem_cons, List.mem_append] at hp
    rcases hp with rfl | hp | hp
    · exact ⟨[], below, rest, rfl, hbelow⟩
    · obtain ⟨before, b, after, rfl, hb⟩ := ihbelow hp
      exact ⟨a :: before, b, after ++ rest, by simp, hb⟩
    · obtain ⟨before, b, after, rfl, hb⟩ := ihrest hp
      exact ⟨a :: (below ++ before), b, after, by simp, hb⟩

variable [DecidableEq α]

/-- A node that is a child of one node only, and once, is listed as a root and once for each time its parent
is. -/
theorem count_eq (h : DepthFirst key children l w) {c p : α}
    (hparent : ∀ x ∈ w, (children (key x)).count c = if x = p then 1 else 0) :
    w.count c = l.count c + w.count p := by
  induction h with
  | nil => rfl
  | @cons a l below rest _ _ ihbelow ihrest =>
    have hchildren := hparent a List.mem_cons_self
    have hbelow := ihbelow fun x hx => hparent x (List.mem_cons_of_mem a (List.mem_append_left rest hx))
    have hrest := ihrest fun x hx => hparent x (List.mem_cons_of_mem a (List.mem_append_right below hx))
    simp only [List.count_cons, List.count_append, hbelow, hrest, hchildren, beq_iff_eq]
    omega

/-- A node that is no child is listed as a root only. -/
theorem count_root (h : DepthFirst key children l w) {c : α} (hroot : ∀ x, c ∉ children (key x)) :
    w.count c = l.count c := by
  induction h with
  | nil => rfl
  | @cons a l below rest _ _ ihbelow ihrest =>
    have hchildren := List.count_eq_zero_of_not_mem (hroot a)
    simp only [List.count_cons, List.count_append, ihbelow, ihrest, hchildren]
    omega

end DepthFirst

end Builderbot.Lib.Forest
