import Mathlib.Data.List.AList

/-!
# Tables

Finite maps with values of one type, as association lists without repeated keys, and the updates
that programs apply to a whole map: keeping the entries that pass a test, rewriting every value, and
updating an entry that is created with a default value when it is missing.
-/

namespace Builderbot

/-- A finite map from `α` to `β`. -/
abbrev Table (α β : Type*) := AList (fun _ : α => β)

namespace Table

variable {α β : Type*}

/-- The values of a table. -/
def values (m : Table α β) : List β := m.entries.map Sigma.snd

/-- Keep the entries that pass the test. -/
def retain (p : α → β → Bool) (m : Table α β) : Table α β where
  entries := m.entries.filter fun e => p e.1 e.2
  nodupKeys := m.nodupKeys.sublist List.filter_sublist

/-- Rewrite every value. -/
def mapValues (f : β → β) (m : Table α β) : Table α β where
  entries := m.entries.map fun e => ⟨e.1, f e.2⟩
  nodupKeys := by
    have hkeys : (m.entries.map fun e => (⟨e.1, f e.2⟩ : Σ _ : α, β)).keys = m.entries.keys := by
      simp [List.keys, Function.comp_def]
    rw [List.NodupKeys, hkeys]
    exact m.nodupKeys

/-- Update the value of a key, which is `d` when the key is missing. -/
def upsert [DecidableEq α] (a : α) (d : β) (f : β → β) (m : Table α β) : Table α β :=
  m.insert a (f ((m.lookup a).getD d))

variable [DecidableEq α]

/-- The table of a function on a list of keys. -/
def tabulate (f : α → Option β) : List α → Table α β
  | [] => ∅
  | a :: keys =>
    match f a with
    | some b => (tabulate f keys).insert a b
    | none => tabulate f keys

theorem lookup_tabulate (f : α → Option β) (keys : List α) (a : α) :
    (tabulate f keys).lookup a = if a ∈ keys then f a else none := by
  induction keys with
  | nil => rfl
  | cons k keys ih =>
    by_cases hak : a = k
    · subst hak
      rw [if_pos List.mem_cons_self, tabulate]
      rcases hf : f a with _ | b
      · show (tabulate f keys).lookup a = none
        rw [ih, hf, ite_self]
      · exact AList.lookup_insert _
    · have hmem : a ∈ k :: keys ↔ a ∈ keys := by simp [hak]
      simp only [hmem, ← ih, tabulate]
      rcases f k with _ | b
      · rfl
      · exact AList.lookup_insert_ne hak

theorem lookup_retain (p : α → β → Bool) (m : Table α β) (a : α) :
    (m.retain p).lookup a = (m.lookup a).filter (p a) := by
  ext b
  have hmem : b ∈ (m.retain p).lookup a ↔ b ∈ m.lookup a ∧ p a b = true := by
    rw [AList.mem_lookup_iff, AList.mem_lookup_iff, retain, List.mem_filter]
  simpa [Option.filter_eq_some_iff] using hmem

theorem lookup_mapValues (f : β → β) (m : Table α β) (a : α) : (m.mapValues f).lookup a = (m.lookup a).map f := by
  ext b
  have hmem : b ∈ (m.mapValues f).lookup a ↔ ∃ c ∈ m.lookup a, f c = b := by
    rw [AList.mem_lookup_iff, mapValues, List.mem_map]
    constructor
    · rintro ⟨⟨k, c⟩, hc, heq⟩
      cases heq
      exact ⟨c, AList.mem_lookup_iff.mpr hc, rfl⟩
    · rintro ⟨c, hc, rfl⟩
      exact ⟨⟨a, c⟩, AList.mem_lookup_iff.mp hc, rfl⟩
  simpa [Option.map_eq_some_iff] using hmem

theorem mem_values {m : Table α β} {b : β} : b ∈ m.values ↔ ∃ a, m.lookup a = some b := by
  rw [values, List.mem_map]
  constructor
  · rintro ⟨⟨a, c⟩, hc, rfl⟩
    exact ⟨a, AList.mem_lookup_iff.mpr hc⟩
  · rintro ⟨a, hb⟩
    exact ⟨⟨a, b⟩, AList.mem_lookup_iff.mp hb, rfl⟩

/-- Insertions under other keys leave an entry as it is. -/
theorem lookup_foldl_insert_of_forall_ne {γ : Type*} (key : γ → α) (value : γ → β) {xs : List γ} {a : α}
    (h : ∀ x ∈ xs, key x ≠ a) (m : Table α β) :
    (xs.foldl (fun m x => m.insert (key x) (value x)) m).lookup a = m.lookup a := by
  induction xs generalizing m with
  | nil => rfl
  | cons x xs ih =>
    obtain ⟨hx, hxs⟩ := List.forall_mem_cons.mp h
    rw [List.foldl_cons, ih hxs]
    exact AList.lookup_insert_ne hx.symm

/-- Where the keys are different, each inserted value is found under its key. -/
theorem lookup_foldl_insert_of_mem {γ : Type*} (key : γ → α) (value : γ → β) {xs : List γ} (h : (xs.map key).Nodup)
    {x : γ} (hx : x ∈ xs) (m : Table α β) :
    (xs.foldl (fun m x => m.insert (key x) (value x)) m).lookup (key x) = some (value x) := by
  induction xs generalizing m with
  | nil => exact absurd hx List.not_mem_nil
  | cons y xs ih =>
    rw [List.map_cons, List.nodup_cons] at h
    rw [List.foldl_cons]
    rcases List.mem_cons.mp hx with rfl | hx
    · rw [lookup_foldl_insert_of_forall_ne key value fun z hz heq => h.1 (List.mem_map.mpr ⟨z, hz, heq⟩)]
      exact AList.lookup_insert _
    · exact ih h.2 hx _

/-- Keeping the entries whose key passes a test. -/
theorem lookup_retain_key (p : α → Bool) (m : Table α β) (a : α) :
    (m.retain fun k _ => p k).lookup a = if p a then m.lookup a else none := by
  rw [lookup_retain]
  cases p a <;> cases m.lookup a <;> rfl

end Table

end Builderbot
