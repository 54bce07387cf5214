import Mathlib.Data.List.Basic

/-!
# Line edit scripts and their blocks of change

A script keeps, deletes and inserts items. Its source and target are the two sides it relates, and
`changes` lists its maximal runs of deletions and insertions with their zero-based positions. These
are the hunks of a diff without context, before any numbering convention is applied to them.
-/

namespace Builderbot.Lib

/-- One step of an edit script. -/
inductive Edit (α : Type*) where
  | keep (x : α)
  | delete (x : α)
  | insert (x : α)
deriving DecidableEq, Repr

namespace Edit

variable {α : Type*}

/-- The items the script reads: everything it keeps or deletes. -/
def source : List (Edit α) → List α
  | [] => []
  | .keep x :: es => x :: source es
  | .delete x :: es => x :: source es
  | .insert _ :: es => source es

/-- The items the script writes: everything it keeps or inserts. -/
def target : List (Edit α) → List α
  | [] => []
  | .keep x :: es => x :: target es
  | .delete _ :: es => target es
  | .insert x :: es => x :: target es

end Edit

/-- A block of change: `oldLen` items at `oldPos` are replaced by `newLen` items at `newPos`. -/
structure Change where
  oldPos : ℕ
  oldLen : ℕ
  newPos : ℕ
  newLen : ℕ
deriving DecidableEq, Repr

/-- The block that is open after `dels` deletions and `inss` insertions, if there is one. -/
def Change.flush (bp ap dels inss : ℕ) : List Change :=
  if dels = 0 ∧ inss = 0 then [] else [⟨bp, dels, ap, inss⟩]

/-- The blocks of a script whose open block starts at `bp` and `ap` and holds `dels` deletions and
`inss` insertions so far. -/
def changesFrom {α : Type*} (bp ap dels inss : ℕ) : List (Edit α) → List Change
  | [] => Change.flush bp ap dels inss
  | .keep _ :: es =>
    Change.flush bp ap dels inss ++ changesFrom (bp + dels + 1) (ap + inss + 1) 0 0 es
  | .delete _ :: es => changesFrom bp ap (dels + 1) inss es
  | .insert _ :: es => changesFrom bp ap dels (inss + 1) es

/-- The maximal runs of deletions and insertions of a script, in order. -/
def changes {α : Type*} (es : List (Edit α)) : List Change := changesFrom 0 0 0 0 es

theorem Change.flush_zero (bp ap : ℕ) : Change.flush bp ap 0 0 = [] := by
  simp [Change.flush]

theorem Change.flush_of_ne {dels inss : ℕ} (h : ¬(dels = 0 ∧ inss = 0)) (bp ap : ℕ) :
    Change.flush bp ap dels inss = [⟨bp, dels, ap, inss⟩] := by
  simp [Change.flush, h]

end Builderbot.Lib
