import Builderbot.Lib.JsonValue
import Builderbot.Staged.BrowserCache

/-!
# The keys of the browser cache

`cacheKey` of `apps/staged/src/lib/cache.ts` with `JSON.stringify` and its array replacer. The replacer is the list of the
names of the arguments, and it selects the properties of the objects inside the arguments as well, so two requests that
differ only in properties with other names have one key.

`key_eq_key_iff_iff` says for which requests the keys are right. The argument values that `invalidateCacheByArgs` compares
are strings at the top, which the replacer leaves alone.
-/

namespace Builderbot.Staged.CacheKeys

open Builderbot.Lib.JsonValue

variable {N : Type*}

/-! ## `JSON.stringify` with a list of names -/

/-- What an object without such a property has from `Object.prototype`. Functions are not written, so only `__proto__` is
left, which is the prototype itself: it has no property to write but its own `__proto__`, which is `null`. -/
def inherited (name : List Char) : Option (Value N) :=
  if name = "__proto__".toList then some (.object [(name, .null)]) else none

/-- The properties that are read for the names, in the order of the names. -/
def pick (names : List (List Char)) (f : List Char → Option (Value N)) : List (Property N) :=
  names.filterMap fun name => (f name).map fun v => (name, v)

mutual

/-- The value that is written when the replacer is a list of names: every object in it has the properties that the list
names. -/
def restrict (names : List (List Char)) : Value N → Value N
  | .null => .null
  | .bool b => .bool b
  | .number n => .number n
  | .string s => .string s
  | .array items => .array (restrictItems names items)
  | .object ps =>
    let restricted := restrictProperties names ps
    .object (pick names fun name => (restricted.lookup name).or (inherited name))

def restrictItems (names : List (List Char)) : List (Value N) → List (Value N)
  | [] => []
  | v :: items => restrict names v :: restrictItems names items

def restrictProperties (names : List (List Char)) : List (Property N) → List (Property N)
  | [] => []
  | (name, v) :: ps => (name, restrict names v) :: restrictProperties names ps

end

/-- An object with arguments. -/
structure Record (N : Type*) where
  properties : List (Property N)
  wellFormed : (Value.object properties).WellFormed

namespace Record

variable (args : Record N)

/-- `Object.keys(args)`. -/
def keys : List (List Char) := args.properties.map Prod.fst

/-- `Object.keys(args).sort()`, which compares code units. -/
def sortedKeys : List (List Char) := args.keys.insertionSort fun a b => Lib.Utf16.encode a ≤ Lib.Utf16.encode b

/-- The record as a value. -/
def toValue : Value N := .object args.properties

end Record

/-- `===`, with `none` for a missing property. Objects and arrays that were parsed anew are equal to no other. -/
def strictEq [DecidableEq N] : Option (Value N) → Value N → Bool
  | some .null, .null => true
  | some (.bool a), .bool b => a = b
  | some (.number a), .number b => a = b
  | some (.string a), .string b => a = b
  | _, _ => false

/-- The arguments of commands as JSON. -/
def jsonArgs [DecidableEq N] (F : NumberFormat N) : ArgsCodec (Record N) (Value N) where
  stringify args := write F (restrict args.sortedKeys args.toValue)
  parse s :=
    match read F s with
    | some (.object ps) => some ps
    | _ => none
  strictEq := strictEq

/-- A request of the cache. -/
structure Request (N : Type*) where
  command : List Char
  args : Record N
  noColon : ':' ∉ command

/-- The key of a request. -/
def Request.key [DecidableEq N] (F : NumberFormat N) (r : Request N) : List Char :=
  (jsonArgs F).cacheKey r.command (some r.args)

/-! ## What the key shows -/

/-- What the replacer lets through of an object. -/
def seen (names : List (List Char)) (ps : List (Property N)) (name : List Char) : Option (Value N) :=
  if name ∈ names then (ps.lookup name).or (inherited name) else none

/-- The arguments have the same names, and their values agree but for properties that have none of these names. -/
def Record.AgreesOnKeys (a b : Record N) : Prop :=
  (∀ name, name ∈ a.keys ↔ name ∈ b.keys) ∧ SameBy (seen a.keys) a.toValue b.toValue

/-- The strings are among the arguments. -/
def Record.Includes (args : Record N) (partialArgs : List (List Char × List Char)) : Prop :=
  ∀ p ∈ partialArgs, args.properties.lookup p.1 = some (.string p.2)

/-! ## Restriction and sameness -/

variable {name : List Char} {v : Value N} {f : List Char → Option (Value N)} {ps : List (Property N)} {w : Value N}

section Restrict

attribute [local simp] restrict

variable {names : List (List Char)}

theorem restrictItems_eq_map (names : List (List Char)) (items : List (Value N)) :
    restrictItems names items = items.map (restrict names) := by
  induction items with
  | nil => rfl
  | cons v items ih => rw [restrictItems, ih, List.map_cons]

theorem lookup_restrictProperties (names : List (List Char)) (ps : List (Property N)) (name : List Char) :
    (restrictProperties names ps).lookup name = (ps.lookup name).map (restrict names) := by
  induction ps with
  | nil => rfl
  | cons p ps ih =>
    obtain ⟨key, v⟩ := p
    rw [restrictProperties, List.lookup_cons, List.lookup_cons]
    cases name == key with
    | true => rfl
    | false => exact ih

theorem lookup_pick (names : List (List Char)) (f : List Char → Option (Value N)) (name : List Char) :
    (pick names f).lookup name = if name ∈ names then f name else none := by
  induction names with
  | nil => rfl
  | cons key names ih =>
    by_cases heq : name = key
    · subst heq
      rw [if_pos List.mem_cons_self]
      cases hf : f name with
      | none =>
        rw [pick, List.filterMap_cons_none (by rw [hf]; rfl), ← pick, ih, hf, ite_self]
      | some v => rw [pick, List.filterMap_cons_some (by rw [hf]; rfl), List.lookup_cons_self]
    · have hmem : name ∈ key :: names ↔ name ∈ names := by rw [List.mem_cons, or_iff_right heq]
      simp only [hmem]
      rw [← ih]
      cases hf : f key with
      | none => rw [pick, List.filterMap_cons_none (by rw [hf]; rfl), ← pick]
      | some v =>
        rw [pick, List.filterMap_cons_some (by rw [hf]; rfl), ← pick, List.lookup_cons, beq_false_of_ne heq]

theorem pick_inj {g : List Char → Option (Value N)} :
    pick names f = pick names g ↔ ∀ name ∈ names, f name = g name := by
  constructor
  · intro h name hname
    have hlookup := congrArg (List.lookup name) h
    rwa [lookup_pick, lookup_pick, if_pos hname, if_pos hname] at hlookup
  · intro h
    apply List.filterMap_congr
    intro name hname
    rw [h name hname]

theorem map_fst_pick (h : ∀ name ∈ names, (f name).isSome = true) : (pick names f).map Prod.fst = names := by
  induction names with
  | nil => rfl
  | cons name names ih =>
    obtain ⟨hname, hnames⟩ := List.forall_mem_cons.mp h
    obtain ⟨v, hv⟩ := Option.isSome_iff_exists.mp hname
    rw [pick, List.filterMap_cons_some (by rw [hv]; rfl), ← pick, List.map_cons, ih hnames]

theorem pick_ite_of_notMem (h : name ∉ names) (v : Value N) :
    pick names (fun key => if key = name then some v else none) = [] := by
  rw [pick, List.filterMap_eq_nil_iff]
  intro key hkey
  have hne : key ≠ name := by
    rintro rfl
    exact h hkey
  rw [if_neg hne, Option.map_none]

theorem pick_ite (hnames : names.Nodup) (h : name ∈ names) (v : Value N) :
    pick names (fun key => if key = name then some v else none) = [(name, v)] := by
  induction names with
  | nil => exact absurd h List.not_mem_nil
  | cons key names ih =>
    obtain ⟨hkey, hnames⟩ := List.nodup_cons.mp hnames
    by_cases heq : key = name
    · subst heq
      rw [pick, List.filterMap_cons_some (by rw [if_pos rfl]; rfl), ← pick, pick_ite_of_notMem hkey]
    · rw [pick, List.filterMap_cons_none (by rw [if_neg heq]; rfl), ← pick]
      exact ih hnames ((List.mem_cons.mp h).resolve_left (Ne.symm heq))

/-- What is inherited has nothing to leave out. -/
theorem restrict_inherited (hnames : names.Nodup) (hname : name ∈ names)
    (h : inherited name = some v) : restrict names v = v := by
  unfold inherited at h
  split at h
  · rename_i hproto
    obtain rfl := Option.some.inj h
    have hpick : ∀ key ∈ names, ((restrictProperties names [(name, Value.null)]).lookup key).or (inherited key) =
        if key = name then some (.null : Value N) else none := by
      intro key _
      rw [restrictProperties, restrict, restrictProperties, List.lookup_cons, List.lookup_nil]
      by_cases heq : key = name
      · rw [if_pos heq, beq_iff_eq.mpr heq]
        rfl
      · rw [if_neg heq, beq_false_of_ne heq, inherited, if_neg (hproto ▸ heq)]
        rfl
    simp only [restrict]
    rw [pick_inj.mpr hpick, pick_ite hnames hname]
  · exact absurd h.symm (Option.some_ne_none v)

theorem seen_of_notMem (h : name ∉ names) : seen names ps name = none := by
  rw [seen, if_neg h]

theorem restrict_object (hnames : names.Nodup) (ps : List (Property N)) :
    restrict names (.object ps) = .object (pick names fun name => (seen names ps name).map (restrict names)) := by
  simp only [restrict]
  congr 1
  apply pick_inj.mpr
  intro name hname
  rw [lookup_restrictProperties, seen, if_pos hname]
  cases ps.lookup name with
  | some v => rfl
  | none =>
    simp only [Option.map_none, Option.none_or]
    cases hv : inherited name with
    | none => rfl
    | some v => rw [Option.map_some, restrict_inherited hnames hname hv]

theorem restrict_object_inj (hnames : names.Nodup) {qs : List (Property N)} :
    restrict names (.object ps) = restrict names (.object qs) ↔
      ∀ name, (seen names ps name).map (restrict names) = (seen names qs name).map (restrict names) := by
  rw [restrict_object hnames, restrict_object hnames, Value.object.injEq, pick_inj]
  constructor
  · intro h name
    by_cases hname : name ∈ names
    · exact h name hname
    · rw [seen_of_notMem hname, seen_of_notMem hname]
  · exact fun h name _ => h name

theorem sameBy_object_of {view : List (Property N) → List Char → Option (Value N)} {f : Value N → Value N}
    {qs : List (Property N)} (h : ∀ name, (view ps name).map f = (view qs name).map f)
    (hsame : ∀ name v w, view ps name = some v → f v = f w → SameBy view v w) :
    SameBy view (.object ps) (.object qs) := by
  refine .object (fun name => ?_) fun name v w hv hw => ?_
  · have hname := congrArg Option.isSome (h name)
    rwa [Option.isSome_map, Option.isSome_map] at hname
  · have hname := h name
    rw [hv, hw, Option.map_some, Option.map_some, Option.some.injEq] at hname
    exact hsame name v w hv hname

theorem sameBy_of_null (h : restrict names .null = restrict names v) : SameBy (seen names) .null v := by
  cases v with
  | null => exact .null
  | _ => simp at h

/-- What is inherited has one member, `null`. -/
theorem sameBy_of_inherited (hnames : names.Nodup) (h : inherited name = some v)
    (heq : restrict names v = restrict names w) : SameBy (seen names) v w := by
  unfold inherited at h
  split at h
  · rename_i hproto
    obtain rfl := Option.some.inj h
    cases w with
    | object qs =>
      refine sameBy_object_of ((restrict_object_inj hnames).mp heq) fun key v w hv hvw => ?_
      have hnull : v = .null := by
        unfold seen at hv
        split at hv
        · rw [List.lookup_cons, List.lookup_nil] at hv
          by_cases hkey : key = name
          · rw [beq_iff_eq.mpr hkey] at hv
            exact (Option.some.inj hv).symm
          · rw [beq_false_of_ne hkey, inherited, if_neg (hproto ▸ hkey)] at hv
            exact absurd hv.symm (Option.some_ne_none v)
        · exact absurd hv.symm (Option.some_ne_none v)
      subst hnull
      exact sameBy_of_null hvw
    | _ => simp at heq
  · exact absurd h.symm (Option.some_ne_none v)

theorem sameBy_of_restrict_eq (hnames : names.Nodup) (v : Value N) :
    ∀ w, restrict names v = restrict names w → SameBy (seen names) v w := by
  -- on the value; a value of another kind restricts to another kind
  induction v using Value.induction with
  | null => exact fun w h => sameBy_of_null h
  | bool b =>
    intro w h
    cases w with
    | bool c =>
      simp only [restrict, Value.bool.injEq] at h
      rw [h]
      exact .bool c
    | _ => simp at h
  | number n =>
    intro w h
    cases w with
    | number m =>
      simp only [restrict, Value.number.injEq] at h
      rw [h]
      exact .number m
    | _ => simp at h
  | string s =>
    intro w h
    cases w with
    | string t =>
      simp only [restrict, Value.string.injEq] at h
      rw [h]
      exact .string t
    | _ => simp at h
  | array items ih =>
    intro w h
    cases w with
    | array others =>
      rw [restrict, restrict, Value.array.injEq, restrictItems_eq_map, restrictItems_eq_map] at h
      refine .array (by simpa using congrArg List.length h) fun i x y hx hy => ?_
      have hi := congrArg (·[i]?) h
      simp only [List.getElem?_map, hx, hy, Option.map_some, Option.some.injEq] at hi
      exact ih x (List.mem_of_getElem? hx) y hi
    | _ => simp at h
  | object ps ih =>
    intro w h
    cases w with
    | object qs =>
      refine sameBy_object_of ((restrict_object_inj hnames).mp h) fun name v w hv hvw => ?_
      unfold seen at hv
      split at hv
      · cases hlookup : ps.lookup name with
        | some u =>
          rw [hlookup, Option.some_or, Option.some.injEq] at hv
          subst hv
          obtain ⟨_, _, rfl, -⟩ := List.lookup_eq_some_iff.mp hlookup
          exact ih (name, u) (by simp) w hvw
        -- the name comes from the prototype, for both alike
        | none =>
          rw [hlookup, Option.none_or] at hv
          exact sameBy_of_inherited hnames hv hvw
      · exact absurd hv.symm (Option.some_ne_none v)
    | _ => simp at h

theorem restrict_eq_of_sameBy (hnames : names.Nodup) (h : SameBy (seen names) v w) :
    restrict names v = restrict names w := by
  induction h with
  | null => rfl
  | bool b => rfl
  | number n => rfl
  | string s => rfl
  | array hlength _ ih =>
    rw [restrict, restrict, restrictItems_eq_map, restrictItems_eq_map]
    congr 1
    apply List.ext_getElem?
    intro i
    rw [List.getElem?_map, List.getElem?_map]
    rcases Nat.lt_or_ge i _ with hi | hi
    · rw [List.getElem?_eq_getElem hi, List.getElem?_eq_getElem (hlength ▸ hi)]
      exact congrArg some (ih i _ _ (List.getElem?_eq_getElem hi) (List.getElem?_eq_getElem (hlength ▸ hi)))
    · rw [List.getElem?_eq_none hi, List.getElem?_eq_none (hlength ▸ hi)]
  | @object ps qs hsome _ ih =>
    refine (restrict_object_inj hnames).mpr fun name => ?_
    have hname := hsome name
    cases hv : seen names ps name with
    | none =>
      rw [hv, Option.isSome_none, eq_comm, Option.isSome_eq_false_iff, Option.isNone_iff_eq_none] at hname
      rw [hname]
    | some v =>
      rw [hv, Option.isSome_some] at hname
      obtain ⟨w, hw⟩ := Option.isSome_iff_exists.mp hname.symm
      rw [hw]
      exact congrArg some (ih name v w hv hw)

/-- Values are written alike when they agree on what the names show. -/
theorem restrict_inj (hnames : names.Nodup) : restrict names v = restrict names w ↔ SameBy (seen names) v w :=
  ⟨sameBy_of_restrict_eq hnames v w, restrict_eq_of_sameBy hnames⟩

end Restrict

section Restrict

variable {names : List (List Char)}

theorem mem_pick {p : Property N} : p ∈ pick names f ↔ p.1 ∈ names ∧ f p.1 = some p.2 := by
  obtain ⟨key, v⟩ := p
  simp only [pick, List.mem_filterMap, Option.map_eq_some_iff, Prod.mk.injEq]
  constructor
  · rintro ⟨name, hname, w, hw, rfl, rfl⟩
    exact ⟨hname, hw⟩
  · rintro ⟨hkey, hv⟩
    exact ⟨key, hkey, v, hv, rfl, rfl⟩

theorem wellFormed_of_inherited (h : inherited name = some v) : v.WellFormed := by
  unfold inherited at h
  split at h
  · obtain rfl := Option.some.inj h
    exact .object (List.nodup_singleton _) (List.forall_mem_singleton.mpr .null)
  · exact absurd h.symm (Option.some_ne_none v)

/-- No object is written with a name twice. -/
theorem wellFormed_restrict (hnames : names.Nodup) (h : v.WellFormed) : (restrict names v).WellFormed := by
  induction h with
  | null => exact .null
  | bool b => exact .bool b
  | number n => exact .number n
  | string s => exact .string s
  | array _ ih =>
    rw [restrict, restrictItems_eq_map]
    exact .array (List.forall_mem_map.mpr ih)
  | @object ps _ _ ih =>
    rw [restrict_object hnames]
    refine .object ?_ fun p hp => ?_
    · rw [pick, List.map_filterMap]
      have hname : ∀ name, (Option.map Prod.fst (((seen names ps name).map (restrict names)).map fun v => (name, v))) =
          (seen names ps name).map fun _ => name := by
        intro name
        rw [Option.map_map, Option.map_map]
        rfl
      simp only [hname]
      refine List.Nodup.filterMap (fun a b c hc hc' => ?_) hnames
      obtain ⟨_, -, rfl⟩ := Option.map_eq_some_iff.mp hc
      obtain ⟨_, -, rfl⟩ := Option.map_eq_some_iff.mp hc'
      rfl
    · obtain ⟨hmem, hv⟩ := mem_pick.mp hp
      obtain ⟨u, hu, hrestrict⟩ := Option.map_eq_some_iff.mp hv
      rw [← hrestrict]
      rw [seen, if_pos hmem] at hu
      cases hlookup : ps.lookup p.1 with
      | some w =>
        rw [hlookup, Option.some_or, Option.some.injEq] at hu
        subst hu
        obtain ⟨_, _, rfl, -⟩ := List.lookup_eq_some_iff.mp hlookup
        exact ih (p.1, w) (by simp)
      | none =>
        rw [hlookup, Option.none_or] at hu
        rw [restrict_inherited hnames hmem hu]
        exact wellFormed_of_inherited hu

/-- Values that differ in the order of properties alone agree on what the names show. -/
theorem sameBy_seen_of_same (hnames : names.Nodup) (h : Same v w) : SameBy (seen names) v w := by
  induction h with
  | null => exact .null
  | bool b => exact .bool b
  | number n => exact .number n
  | string s => exact .string s
  | array hlength _ ih => exact .array hlength ih
  | @object ps qs hsome _ ih =>
    refine .object (fun name => ?_) fun name v w hv hw => ?_
    · unfold seen
      split
      · rw [Option.isSome_or, Option.isSome_or, hsome name]
      · rfl
    · unfold seen at hv hw
      split at hv
      · rename_i hname
        rw [if_pos hname] at hw
        have hboth := hsome name
        cases hlookup : ps.lookup name with
        | some u =>
          rw [hlookup, Option.isSome_some] at hboth
          obtain ⟨u', hlookup'⟩ := Option.isSome_iff_exists.mp hboth.symm
          rw [hlookup, Option.some_or, Option.some.injEq] at hv
          rw [hlookup', Option.some_or, Option.some.injEq] at hw
          exact ih name v w (hv ▸ hlookup) (hw ▸ hlookup')
        | none =>
          rw [hlookup, Option.isSome_none, eq_comm, Option.isSome_eq_false_iff, Option.isNone_iff_eq_none] at hboth
          rw [hlookup, Option.none_or] at hv
          rw [hboth, Option.none_or, hv, Option.some.injEq] at hw
          exact sameBy_of_inherited hnames hv (congrArg _ hw)
      · exact absurd hv.symm (Option.some_ne_none v)

end Restrict

/-! ## The names of the arguments -/

namespace Record

variable {a b : Record N}

theorem nodup_keys (a : Record N) : a.keys.Nodup := by
  obtain ⟨ps, hwf⟩ := a
  cases hwf with
  | object hnames _ => exact hnames

theorem mem_sortedKeys : name ∈ a.sortedKeys ↔ name ∈ a.keys := List.mem_insertionSort _

theorem nodup_sortedKeys (a : Record N) : a.sortedKeys.Nodup := (List.perm_insertionSort _ _).nodup_iff.mpr a.nodup_keys

theorem lookup_isSome : (a.properties.lookup name).isSome = true ↔ name ∈ a.keys := by
  rw [List.lookup_isSome_iff, keys, List.mem_map]
  constructor
  · rintro ⟨p, hp, heq⟩
    exact ⟨p, hp, (beq_iff_eq.mp heq).symm⟩
  · rintro ⟨p, hp, rfl⟩
    exact ⟨p, hp, beq_self_eq_true _⟩

/-- Sorting forgets the order of the names. -/
theorem sortedKeys_congr (h : ∀ name, name ∈ a.keys ↔ name ∈ b.keys) : a.sortedKeys = b.sortedKeys := by
  have hperm : a.keys.Perm b.keys := (List.perm_ext_iff_of_nodup a.nodup_keys b.nodup_keys).mpr h
  have hmap : ∀ ks : List (List Char), (ks.insertionSort fun a b => Lib.Utf16.encode a ≤ Lib.Utf16.encode b).map
      Lib.Utf16.encode = (ks.map Lib.Utf16.encode).insertionSort (· ≤ ·) := by
    intro ks
    exact List.map_insertionSort _ _ _ _ fun _ _ _ _ => Iff.rfl
  apply List.map_injective_iff.mpr Lib.Utf16.encode_injective
  rw [sortedKeys, sortedKeys, hmap, hmap]
  refine List.Perm.eq_of_pairwise' (List.pairwise_insertionSort _ _) (List.pairwise_insertionSort _ _) ?_
  exact ((List.perm_insertionSort _ _).trans (hperm.map _)).trans (List.perm_insertionSort _ _).symm

end Record

namespace Record

variable {a b : Record N}

theorem seen_sortedKeys (a : Record N) : seen (N := N) a.sortedKeys = seen a.keys := by
  funext ps name
  simp only [seen, mem_sortedKeys]

/-- The names of the arguments can be read off what is written. -/
theorem sortedKeys_of_restrict_eq (h : restrict a.sortedKeys a.toValue = restrict b.sortedKeys b.toValue) :
    a.sortedKeys = b.sortedKeys := by
  have hall : ∀ c : Record N, ∀ name ∈ c.sortedKeys,
      (((seen c.sortedKeys c.properties name).map (restrict c.sortedKeys))).isSome = true := by
    intro c name hname
    rw [Option.isSome_map, seen, if_pos hname, Option.isSome_or, lookup_isSome.mpr (mem_sortedKeys.mp hname), Bool.true_or]
  rw [toValue, toValue, restrict_object a.nodup_sortedKeys, restrict_object b.nodup_sortedKeys, Value.object.injEq] at h
  rw [← map_fst_pick (hall a), ← map_fst_pick (hall b), h]

/-- What is written for two records is the same when they agree on their names. -/
theorem restrict_eq_iff : restrict a.sortedKeys a.toValue = restrict b.sortedKeys b.toValue ↔ a.AgreesOnKeys b := by
  have hsame : a.sortedKeys = b.sortedKeys → (restrict a.sortedKeys a.toValue = restrict b.sortedKeys b.toValue ↔
      SameBy (seen a.keys) a.toValue b.toValue) := by
    intro h
    rw [← h, restrict_inj a.nodup_sortedKeys, seen_sortedKeys]
  constructor
  · intro h
    have hkeys := sortedKeys_of_restrict_eq h
    refine ⟨fun name => ?_, (hsame hkeys).mp h⟩
    rw [← mem_sortedKeys, hkeys, mem_sortedKeys]
  · rintro ⟨hnames, hseen⟩
    exact (hsame (sortedKeys_congr hnames)).mpr hseen

theorem agreesOnKeys_of_same (h : Same a.toValue b.toValue) : a.AgreesOnKeys b := by
  constructor
  · intro name
    cases h with
    | object hsome _ => rw [← lookup_isSome, ← lookup_isSome, hsome name]
  · rw [← seen_sortedKeys]
    exact sameBy_seen_of_same a.nodup_sortedKeys h

end Record

/-! ## Keys -/

section Keys

variable (F : NumberFormat N) {r r' : Request N}

/-- A colon ends the command. -/
theorem append_colon_inj {s s' t t' : List Char} (hs : ':' ∉ s) (hs' : ':' ∉ s') :
    s ++ ':' :: t = s' ++ ':' :: t' ↔ s = s' ∧ t = t' := by
  constructor
  · intro h
    have hsplit := @Lib.Text.splitOnce_append ':' [] s t hs
    rw [List.append_assoc, List.singleton_append, h, List.append_cons, Lib.Text.splitOnce_append hs', Option.some.injEq,
      Prod.mk.injEq] at hsplit
    exact ⟨hsplit.1.symm, hsplit.2.symm⟩
  · rintro ⟨rfl, rfl⟩
    rfl

theorem wellFormed_written (r : Request N) : (restrict r.args.sortedKeys r.args.toValue).WellFormed :=
  wellFormed_restrict r.args.nodup_sortedKeys r.args.wellFormed

variable [DecidableEq N]

theorem key_eq (r : Request N) :
    r.key F = r.command ++ ':' :: write F (restrict r.args.sortedKeys r.args.toValue) := rfl

/-- Two requests have one key when they agree on the names of their arguments. -/
theorem key_inj : r.key F = r'.key F ↔ r.command = r'.command ∧ r.args.AgreesOnKeys r'.args := by
  rw [key_eq, key_eq, append_colon_inj r.noColon r'.noColon, write_inj (wellFormed_written r) (wellFormed_written r'),
    Record.restrict_eq_iff]

theorem strictEq_string {names : List (List Char)} {s : List Char} :
    strictEq (some (restrict names v)) (.string s) = true ↔ v = .string s := by
  cases v with
  | string t => simp [restrict, strictEq]
  | _ => simp [restrict, strictEq]

theorem parse_written (r : Request N) : (jsonArgs F).parse (write F (restrict r.args.sortedKeys r.args.toValue)) =
    some (pick r.args.sortedKeys fun name =>
      (seen r.args.sortedKeys r.args.properties name).map (restrict r.args.sortedKeys)) := by
  simp only [jsonArgs]
  rw [read_write (wellFormed_written r), Record.toValue, restrict_object r.args.nodup_sortedKeys]

/-- A string is found among the parsed arguments when it is an argument. -/
theorem strictEq_lookup (a : Record N) (name s : List Char) :
    strictEq ((pick a.sortedKeys fun name => (seen a.sortedKeys a.properties name).map
      (restrict a.sortedKeys)).lookup name) (.string s) = true ↔ a.properties.lookup name = some (.string s) := by
  rw [lookup_pick, seen]
  cases hlookup : a.properties.lookup name with
  | none =>
    have hname : name ∉ a.sortedKeys := by
      rw [Record.mem_sortedKeys, ← Record.lookup_isSome, hlookup]
      exact Bool.false_ne_true
    rw [if_neg hname]
    simp [strictEq]
  | some v =>
    have hname : name ∈ a.sortedKeys := by
      rw [Record.mem_sortedKeys, ← Record.lookup_isSome, hlookup]
      rfl
    rw [if_pos hname, if_pos hname, Option.some_or, Option.map_some, strictEq_string, Option.some.injEq]

/-- Invalidation by arguments selects the keys of the requests with these arguments. -/
theorem matchesArgs_key {command : List Char} (hcommand : ':' ∉ command) (partialArgs : List (List Char × List Char))
    (r : Request N) :
    (jsonArgs F).matchesArgs command (partialArgs.map fun p => (p.1, .string p.2)) (r.key F) = true ↔
      r.command = command ∧ r.args.Includes partialArgs := by
  have hname : (command ++ [':']).isPrefixOf (r.key F) = true ↔ r.command = command := by
    rw [List.isPrefixOf_iff_prefix, key_eq]
    constructor
    · rintro ⟨t, ht⟩
      rw [List.append_assoc, List.singleton_append, append_colon_inj hcommand r.noColon] at ht
      exact ht.1.symm
    · rintro rfl
      exact ⟨_, by rw [List.append_assoc, List.singleton_append]⟩
  rw [ArgsCodec.matchesArgs, ArgsCodec.parseCacheArgs]
  by_cases heq : r.command = command
  · rw [if_pos (hname.mpr heq)]
    subst heq
    have hdrop : (r.key F).drop (r.command.length + 1) = write F (restrict r.args.sortedKeys r.args.toValue) := by
      rw [key_eq, List.append_cons]
      exact List.drop_left' (by simp)
    rw [hdrop, parse_written]
    simp only [true_and, List.all_map, List.all_eq_true, Function.comp_apply, Record.Includes]
    exact forall₂_congr fun p _ => strictEq_lookup r.args p.1 p.2
  · rw [if_neg (fun h => heq (hname.mp h))]
    simp [heq]

/-- The keys of two requests tell them apart, and are found by the arguments, unless the requests differ and it is only in
properties of nested objects that are named otherwise than all arguments. -/
theorem keys_separate_iff (r r' : Request N) :
    ((r.key F = r'.key F ↔ r.command = r'.command ∧ Same r.args.toValue r'.args.toValue) ∧
      ∀ command : List Char, ':' ∉ command → ∀ partialArgs,
        ((jsonArgs F).matchesArgs command (partialArgs.map fun p => (p.1, .string p.2)) (r.key F) = true ↔
          r.command = command ∧ r.args.Includes partialArgs)) ↔
      (r.command = r'.command → r.args.AgreesOnKeys r'.args → Same r.args.toValue r'.args.toValue) := by
  rw [key_inj]
  constructor
  · rintro ⟨hkeys, -⟩ hcommand hagree
    exact (hkeys.mp ⟨hcommand, hagree⟩).2
  · intro h
    refine ⟨⟨fun hkey => ⟨hkey.1, h hkey.1 hkey.2⟩, fun hsame => ⟨hsame.1, Record.agreesOnKeys_of_same hsame.2⟩⟩, ?_⟩
    exact fun command hcommand partialArgs => matchesArgs_key F hcommand partialArgs r

end Keys

/-! ## A collision -/

/-- A request whose only argument is an object with a state. -/
def listByState (state : List Char) : Request ℕ where
  command := "list_items".toList
  args :=
    { properties := [("filter".toList, .object [("state".toList, .string state)])]
      wellFormed := .object (List.nodup_singleton _) (List.forall_mem_singleton.mpr
        (.object (List.nodup_singleton _) (List.forall_mem_singleton.mpr (.string state)))) }
  noColon := by decide

/-- Both requests have the key `list_items:{"filter":{}}`. -/
theorem keys_collide_listByState :
    (listByState "open".toList).key naturals = (listByState "closed".toList).key naturals ∧
      ¬ Same (listByState "open".toList).args.toValue (listByState "closed".toList).args.toValue := by
  refine ⟨by decide, fun h => ?_⟩
  cases h with
  | object _ hfilter =>
    have hstate := hfilter "filter".toList _ _ rfl rfl
    cases hstate with
    | object _ hstate => cases hstate "state".toList _ _ rfl rfl

end Builderbot.Staged.CacheKeys
