import Mathlib.Data.List.Basic

/-!
# File trees

Paths are lists of names. A tree is a file or a directory with named entries, and `walk` visits it as
`filepath.WalkDir` does: a directory is entered or skipped as a whole, and what is decided may depend on the
state. `way` lists the directories that lead to a file.

`observe_walk` says what a walk does to something that only one file has an influence on.
-/

namespace Builderbot

abbrev Path := List (List Char)

mutual

inductive FileTree (δ : Type) where
  | file (data : δ)
  | dir (entries : FileTree.Entries δ)

inductive FileTree.Entries (δ : Type) where
  | nil
  | cons (name : List Char) (tree : FileTree δ) (rest : FileTree.Entries δ)

end

variable {path : Path} {name : List Char}

namespace FileTree

variable {δ : Type}

def Entries.names : Entries δ → List (List Char)
  | .nil => []
  | .cons name _ rest => name :: rest.names

mutual

/-- What is at a path. -/
def at? : FileTree δ → Path → Option (FileTree δ)
  | tree, [] => some tree
  | .file _, _ :: _ => none
  | .dir entries, name :: path => entries.at? name path

def Entries.at? : Entries δ → List Char → Path → Option (FileTree δ)
  | .nil, _, _ => none
  | .cons name tree rest, first, path => if name = first then tree.at? path else rest.at? first path

end

mutual

/-- No directory has two entries of one name. -/
def Valid : FileTree δ → Prop
  | .file _ => True
  | .dir entries => entries.Valid

def Entries.Valid : Entries δ → Prop
  | .nil => True
  | .cons name tree rest => name ∉ rest.names ∧ tree.Valid ∧ rest.Valid

end

/-- The directories on the way from `path` to what is at `rest` below it. -/
def way (path : Path) : Path → List Path
  | [] => []
  | name :: rest => path :: way (path ++ [name]) rest

theorem way_concat (path rest : Path) (name : List Char) :
    way path (rest ++ [name]) = way path rest ++ [path ++ rest] := by
  induction rest generalizing path with
  | nil => simp [way]
  | cons first rest ih =>
    rw [List.cons_append, way, way, ih]
    simp

mutual

theorem at?_append : ∀ (tree : FileTree δ) (path rest : Path),
    tree.at? (path ++ rest) = (tree.at? path).bind (·.at? rest)
  | tree, [], rest => by rw [List.nil_append, at?, Option.bind_some]
  | .file _, _ :: _, rest => by
      rw [List.cons_append, at?, at?]
      rfl
  | .dir entries, name :: path, rest => by
      rw [List.cons_append, at?, at?]
      exact entries.at?_append name path rest

theorem Entries.at?_append : ∀ (entries : Entries δ) (name : List Char) (path rest : Path),
    entries.at? name (path ++ rest) = (entries.at? name path).bind (·.at? rest)
  | .nil, _, _, _ => by
      rw [Entries.at?, Entries.at?]
      rfl
  | .cons first tree others, name, path, rest => by
      rw [Entries.at?, Entries.at?]
      split
      · exact tree.at?_append path rest
      · exact others.at?_append name path rest

end

mutual

theorem Valid.at? : ∀ {tree : FileTree δ}, tree.Valid → ∀ {path : Path} {found : FileTree δ},
    tree.at? path = some found → found.Valid
  | tree, hvalid, [], found, h => by
      rw [FileTree.at?, Option.some.injEq] at h
      exact h ▸ hvalid
  | .file _, _, _ :: _, _, h => by
      rw [FileTree.at?] at h
      cases h
  | .dir entries, hvalid, _ :: _, _, h => by
      rw [FileTree.at?] at h
      exact Entries.Valid.at? hvalid h

theorem Entries.Valid.at? : ∀ {entries : Entries δ}, entries.Valid → ∀ {name : List Char} {path : Path}
    {found : FileTree δ}, entries.at? name path = some found → found.Valid
  | .nil, _, _, _, _, h => by
      rw [Entries.at?] at h
      cases h
  | .cons first tree others, hvalid, name, path, found, h => by
      obtain ⟨-, htree, hothers⟩ := hvalid
      rw [Entries.at?] at h
      split at h
      · exact htree.at? h
      · exact Entries.Valid.at? hothers h

end

section Walk

variable {σ : Type} (enter : Path → σ → Bool × σ) (visit : Path → δ → σ → σ)

mutual

/-- Visit the files of a tree at a path, in the directories that are entered. -/
def walk (path : Path) : FileTree δ → σ → σ
  | .file data, s => visit path data s
  | .dir entries, s => if (enter path s).1 then walkEntries path entries (enter path s).2 else (enter path s).2

def walkEntries (path : Path) : Entries δ → σ → σ
  | .nil, s => s
  | .cons name tree rest, s => walkEntries path rest (walk (path ++ [name]) tree s)

end

variable {enter visit}

theorem Entries.at?_of_notMem : ∀ {entries : Entries δ} {name : List Char}, name ∉ entries.names →
    ∀ path, entries.at? name path = none
  | .nil, _, _, _ => by rw [Entries.at?]
  | .cons first tree rest, name, h, path => by
      rw [Entries.names, List.mem_cons, not_or] at h
      rw [Entries.at?, if_neg fun heq => h.1 heq.symm]
      exact Entries.at?_of_notMem h.2 path

/-- The first entry. -/
theorem Entries.at?_head (name : List Char) (tree : FileTree δ) (rest : Entries δ) (path : Path) :
    (Entries.cons name tree rest).at? name path = tree.at? path := by
  rw [Entries.at?, if_pos rfl]

/-- What is at a path of the other entries is at that path of all. -/
theorem Entries.at?_tail {rest : Entries δ} (hname : name ∉ rest.names)
    (tree : FileTree δ) {other : List Char} {found : FileTree δ}
    (h : rest.at? other path = some found) :
    (Entries.cons name tree rest).at? other path = some found := by
  have hne : name ≠ other := by
    rintro rfl
    rw [Entries.at?_of_notMem hname] at h
    cases h
  rw [Entries.at?, if_neg hne]
  exact h

mutual

/-- What the decisions at the directories and the visits of the files preserve, the walk preserves. -/
theorem walk_invariant (Inv : σ → Prop) {path : Path} : ∀ {tree : FileTree δ} {s : σ}, tree.Valid →
    (∀ rest entries s, tree.at? rest = some (.dir entries) → Inv s → Inv (enter (path ++ rest) s).2) →
    (∀ rest data s, tree.at? rest = some (.file data) → Inv s → Inv (visit (path ++ rest) data s)) →
    Inv s → Inv (walk enter visit path tree s)
  | .file data, s, _, _, hvisit, hs => by
      have h := hvisit [] data s (by rw [at?]) hs
      rwa [List.append_nil] at h
  | .dir entries, s, hvalid, henter, hvisit, hs => by
      have h := henter [] entries s (by rw [at?]) hs
      rw [List.append_nil] at h
      rw [walk]
      split
      · refine walkEntries_invariant Inv hvalid (fun name rest entries' s hat => ?_)
          (fun name rest data s hat => ?_) h
        · exact henter (name :: rest) entries' s (by rw [at?]; exact hat)
        · exact hvisit (name :: rest) data s (by rw [at?]; exact hat)
      · exact h

theorem walkEntries_invariant (Inv : σ → Prop) {path : Path} : ∀ {entries : Entries δ} {s : σ}, entries.Valid →
    (∀ name rest entries' s, entries.at? name rest = some (.dir entries') → Inv s →
      Inv (enter (path ++ name :: rest) s).2) →
    (∀ name rest data s, entries.at? name rest = some (.file data) → Inv s →
      Inv (visit (path ++ name :: rest) data s)) →
    Inv s → Inv (walkEntries enter visit path entries s)
  | .nil, s, _, _, _, hs => by
      rw [walkEntries]
      exact hs
  | .cons name tree rest, s, hvalid, henter, hvisit, hs => by
      obtain ⟨hname, htree, hrest⟩ := hvalid
      rw [walkEntries]
      refine walkEntries_invariant Inv hrest (fun other path' entries' s hat => ?_)
        (fun other path' data s hat => ?_) ?_
      · exact henter other path' entries' s (Entries.at?_tail hname tree hat)
      · exact hvisit other path' data s (Entries.at?_tail hname tree hat)
      · refine walk_invariant Inv htree (fun path' entries' s hat => ?_) (fun path' data s hat => ?_) hs
        · rw [List.append_assoc]
          exact henter name path' entries' s ((Entries.at?_head name tree rest path').trans hat)
        · rw [List.append_assoc]
          exact hvisit name path' data s ((Entries.at?_head name tree rest path').trans hat)

end

/-! ### The directories of a walk -/

mutual

/-- A walk that notes the directories it enters notes those below which and at which nothing is skipped. -/
theorem mem_walk_insert (skips : Path → Bool) : ∀ {tree : FileTree δ} {path q : Path} {out : List Path}, tree.Valid →
    (q ∈ walk (fun path out => if skips path then (false, out) else (true, out.insert path)) (fun _ _ out => out)
        path tree out ↔
      q ∈ out ∨ ∃ rest entries, path ++ rest = q ∧ tree.at? rest = some (.dir entries) ∧
        ∀ d ∈ way path rest ++ [q], skips d = false)
  | .file data, path, q, out, _ => by
      rw [walk]
      refine ⟨.inl, ?_⟩
      rintro (h | ⟨_ | ⟨name, rest⟩, entries, -, hat, -⟩)
      · exact h
      · rw [at?] at hat
        cases hat
      · rw [at?] at hat
        cases hat
  | .dir entries, path, q, out, hvalid => by
      cases hskips : skips path with
      | true =>
        simp only [walk, hskips, if_true, Bool.false_eq_true, if_false]
        refine ⟨.inl, ?_⟩
        rintro (h | ⟨_ | ⟨name, rest⟩, entries', rfl, -, hway⟩)
        · exact h
        · cases (hway path (by simp [way])).symm.trans hskips
        · cases (hway path (by simp [way])).symm.trans hskips
      | false =>
        simp only [walk, hskips, if_true, Bool.false_eq_true, if_false]
        rw [mem_walkEntries_insert skips hvalid, List.mem_insert_iff]
        constructor
        · rintro ((rfl | h) | ⟨name, rest, entries', hq, hat, hway⟩)
          · exact .inr ⟨[], entries, by simp, by rw [at?], by simpa [way] using hskips⟩
          · exact .inl h
          · exact .inr ⟨name :: rest, entries', hq, by rw [at?]; exact hat, by
              rw [way]
              simpa [hskips] using hway⟩
        · rintro (h | ⟨_ | ⟨name, rest⟩, entries', hq, hat, hway⟩)
          · exact .inl (.inr h)
          · exact .inl (.inl (by simpa using hq.symm))
          · rw [at?] at hat
            rw [way] at hway
            exact .inr ⟨name, rest, entries', hq, hat, fun d hd => hway d (List.mem_cons_of_mem _ hd)⟩

theorem mem_walkEntries_insert (skips : Path → Bool) : ∀ {entries : Entries δ} {path q : Path} {out : List Path},
    entries.Valid →
    (q ∈ walkEntries (fun path out => if skips path then (false, out) else (true, out.insert path))
        (fun _ _ out => out) path entries out ↔
      q ∈ out ∨ ∃ name rest entries', path ++ name :: rest = q ∧ entries.at? name rest = some (.dir entries') ∧
        ∀ d ∈ way (path ++ [name]) rest ++ [q], skips d = false)
  | .nil, path, q, out, _ => by
      rw [walkEntries]
      refine ⟨.inl, ?_⟩
      rintro (h | ⟨name, rest, entries', -, hat, -⟩)
      · exact h
      · rw [Entries.at?] at hat
        cases hat
  | .cons first tree others, path, q, out, hvalid => by
      obtain ⟨hfirst, htree, hothers⟩ := hvalid
      rw [walkEntries, mem_walkEntries_insert skips hothers, mem_walk_insert skips htree, or_assoc]
      refine or_congr_right ⟨?_, ?_⟩
      · rintro (⟨rest, entries', hq, hat, hway⟩ | ⟨name, rest, entries', hq, hat, hway⟩)
        · exact ⟨first, rest, entries', by rw [← hq, List.append_assoc]; rfl, by rw [Entries.at?_head]; exact hat, hway⟩
        · exact ⟨name, rest, entries', hq, Entries.at?_tail hfirst tree hat, hway⟩
      · rintro ⟨name, rest, entries', hq, hat, hway⟩
        by_cases hname : first = name
        · subst hname
          rw [Entries.at?_head] at hat
          exact .inl ⟨rest, entries', by rw [List.append_assoc]; exact hq, hat, hway⟩
        · rw [Entries.at?, if_neg hname] at hat
          exact .inr ⟨name, rest, entries', hq, hat, hway⟩

end

/-! ### One file -/

/-- An observation of the state that only the visit of one file changes. -/
structure Observes {α : Type} (enter : Path → σ → Bool × σ) (visit : Path → δ → σ → σ) (observe : σ → α)
    (target : Path) (data : δ) (effect : α → α) : Prop where
  enter : ∀ path s, observe (enter path s).2 = observe s
  other : ∀ path data s, path ≠ target → observe (visit path data s) = observe s
  target : ∀ s, observe (visit target data s) = effect (observe s)

variable {α : Type} {observe : σ → α} {target : Path} {data : δ} {effect : α → α}

/-- Where the file is not, nothing is observed. -/
theorem Observes.walk_of_not_isPrefix (h : Observes enter visit observe target data effect)
    (hpath : ¬ path <+: target) {tree : FileTree δ} (hvalid : tree.Valid) (s : σ) :
    observe (walk enter visit path tree s) = observe s := by
  refine walk_invariant (fun t => observe t = observe s) hvalid (fun rest entries t _ ht => ?_)
    (fun rest data t _ ht => ?_) rfl
  · rw [h.enter, ht]
  · rw [h.other _ _ _ fun heq => hpath ⟨rest, heq⟩, ht]

theorem Entries.mem_names_of_at? {entries : Entries δ}
    {found : FileTree δ} (h : entries.at? name path = some found) : name ∈ entries.names := by
  by_contra hname
  rw [Entries.at?_of_notMem hname] at h
  cases h

theorem Observes.walkEntries_of_notMem (h : Observes enter visit observe target data effect)
    {rest : Path} (htarget : path ++ name :: rest = target)
    {entries : Entries δ} (hvalid : entries.Valid) (hname : name ∉ entries.names) (s : σ) :
    observe (walkEntries enter visit path entries s) = observe s := by
  refine walkEntries_invariant (fun t => observe t = observe s) hvalid
    (fun other rest' entries' t _ ht => ?_) (fun other rest' data t hat ht => ?_) rfl
  · rw [h.enter, ht]
  · rw [h.other _ _ _ fun heq => ?_, ht]
    rw [← htarget, List.append_cancel_left_eq, List.cons.injEq] at heq
    exact hname (heq.1 ▸ Entries.mem_names_of_at? hat)

/-! ### A flag that is lost on the way -/

mutual

/-- The directories that a walk comes to, in its order. -/
def comesTo (enters : Path → Bool) (path : Path) : FileTree δ → List Path
  | .file _ => []
  | .dir entries => path :: if enters path then comesToEntries enters path entries else []

def comesToEntries (enters : Path → Bool) (path : Path) : Entries δ → List Path
  | .nil => []
  | .cons name tree rest => comesTo enters (path ++ [name]) tree ++ comesToEntries enters path rest

end

mutual

/-- The directories that a walk comes to before what is at `rest`. -/
def comesBefore (enters : Path → Bool) (path : Path) : FileTree δ → Path → List Path
  | .dir entries, name :: rest => path :: if enters path then comesBeforeEntries enters path entries name rest else []
  | .dir _, [] | .file _, _ => []

def comesBeforeEntries (enters : Path → Bool) (path : Path) : Entries δ → List Char → Path → List Path
  | .nil, _, _ => []
  | .cons first tree others, name, rest =>
    if first = name then comesBefore enters (path ++ [first]) tree rest
    else comesTo enters (path ++ [first]) tree ++ comesBeforeEntries enters path others name rest

end

/-- What is entered depends on the state through a flag, which some directories put out for good. -/
structure Flagged (enter : Path → σ → Bool × σ) (visit : Path → δ → σ → σ) (flag : σ → Bool)
    (enters : Bool → Path → Bool) (ends : Path → Bool) : Prop where
  enter_eq : ∀ path s, (enter path s).1 = enters (flag s) path
  flag_enter : ∀ path s, flag (enter path s).2 = (flag s && !ends path)
  flag_visit : ∀ path data s, flag (visit path data s) = flag s

variable {flag : σ → Bool} {enters : Bool → Path → Bool} {ends : Path → Bool}

mutual

/-- The flag is up after the walk if no directory put it out that the walk came to while it was up. -/
theorem Flagged.flag_walk (h : Flagged enter visit flag enters ends) : ∀ (tree : FileTree δ) (path : Path) (s : σ),
    flag (walk enter visit path tree s) =
      (flag s && (comesTo (enters true) path tree).all fun dir => !ends dir)
  | .file data, path, s => by
      rw [walk, h.flag_visit, comesTo, List.all_nil, Bool.and_true]
  | .dir entries, path, s => by
      have hentries := h.flag_walkEntries entries path (enter path s).2
      have henters := h.enter_eq path s
      rw [h.flag_enter] at hentries
      rw [walk, comesTo, List.all_cons, ← Bool.and_assoc]
      cases hflag : flag s with
      | false =>
        simp only [hflag, Bool.false_and] at hentries ⊢
        split
        · exact hentries
        · rw [h.flag_enter, hflag, Bool.false_and]
      | true =>
        rw [hflag] at henters hentries
        rw [henters]
        cases enters true path with
        | true => exact hentries
        | false => simp only [Bool.false_eq_true, if_false, h.flag_enter, hflag, List.all_nil, Bool.and_true]

theorem Flagged.flag_walkEntries (h : Flagged enter visit flag enters ends) :
    ∀ (entries : Entries δ) (path : Path) (s : σ),
    flag (walkEntries enter visit path entries s) =
      (flag s && (comesToEntries (enters true) path entries).all fun dir => !ends dir)
  | .nil, path, s => by
      rw [walkEntries, comesToEntries, List.all_nil, Bool.and_true]
  | .cons name tree rest, path, s => by
      rw [walkEntries, h.flag_walkEntries rest, h.flag_walk tree, comesToEntries, List.all_append, Bool.and_assoc]

end

/-- A directory that is entered is the first that the walk comes to before what is below it. -/
theorem Flagged.all_comesBefore (h : Flagged enter visit flag enters ends) {path : Path} {s : σ}
    (henter : (enter path s).1 = true) (entries : Entries δ) (name : List Char) (rest : Path) :
    (flag s && !ends path && (comesBeforeEntries (enters true) path entries name rest).all fun d => !ends d) =
      (flag s && (comesBefore (enters true) path (.dir entries) (name :: rest)).all fun d => !ends d) := by
  have henters := h.enter_eq path s
  rw [comesBefore, List.all_cons]
  cases hs : flag s with
  | false => rfl
  | true =>
    rw [henter, hs] at henters
    rw [← henters]
    rfl

/-- The way starts at the path. -/
theorem exists_append_of_mem_way {path rest dir : Path} (h : dir ∈ way path rest) : ∃ down, dir = path ++ down := by
  induction rest generalizing path with
  | nil => cases h
  | cons name rest ih =>
    rcases List.mem_cons.mp h with rfl | h
    · exact ⟨[], (List.append_nil _).symm⟩
    · obtain ⟨down, rfl⟩ := ih h
      exact ⟨name :: down, by rw [List.append_assoc]; rfl⟩

mutual

/-- The file is visited if every directory on the way to it is entered. The flag is up at a directory if none put it out that
the walk came to before. -/
theorem Observes.observe_walk (h : Observes enter visit observe target data effect)
    (hflag : Flagged enter visit flag enters ends) :
    ∀ {tree : FileTree δ} {path rest : Path} {s : σ}, tree.Valid →
      tree.at? rest = some (.file data) → path ++ rest = target →
      observe (walk enter visit path tree s) =
        if (way path rest).all fun dir => enters (flag s &&
            (comesBefore (enters true) path tree (dir.drop path.length)).all fun d => !ends d) dir
          then effect (observe s) else observe s
  | .file data', path, rest, s, _, hat, htarget => by
      rcases rest with _ | ⟨name, rest⟩
      · rw [at?, Option.some.injEq, FileTree.file.injEq] at hat
        rw [List.append_nil] at htarget
        rw [walk, htarget, hat, h.target]
        rfl
      · rw [at?] at hat
        cases hat
  | .dir entries, path, rest, s, hvalid, hat, htarget => by
      rcases rest with _ | ⟨name, rest⟩
      · rw [at?] at hat
        cases hat
      · rw [at?] at hat
        have hroot : (comesBefore (enters true) path (.dir entries) (path.drop path.length)).all (fun d => !ends d) = true := by
          rw [List.drop_length, comesBefore]
          rfl
        rw [walk, way, List.all_cons, hroot, Bool.and_true, ← hflag.enter_eq path s]
        cases henter : (enter path s).1 with
        | false => exact h.enter path s
        | true =>
          rw [if_pos rfl, h.observe_walkEntries hflag hvalid hat htarget, h.enter, Bool.true_and, hflag.flag_enter]
          have hsame : ∀ dir ∈ way (path ++ [name]) rest,
              (flag s && !ends path && (comesBeforeEntries (enters true) path entries name
                  (dir.drop (path.length + 1))).all fun d => !ends d) =
                (flag s && (comesBefore (enters true) path (.dir entries) (dir.drop path.length)).all
                  fun d => !ends d) := by
            intro dir hdir
            obtain ⟨down, rfl⟩ := exists_append_of_mem_way hdir
            have hdrop : (path ++ [name] ++ down).drop path.length = name :: down := by simp
            have hdrop' : (path ++ [name] ++ down).drop (path.length + 1) = down := by simp
            rw [hdrop, hdrop']
            exact hflag.all_comesBefore henter entries name down
          have hall : ((way (path ++ [name]) rest).all fun dir => enters (flag s && !ends path &&
                (comesBeforeEntries (enters true) path entries name (dir.drop (path.length + 1))).all fun d => !ends d) dir) =
              (way (path ++ [name]) rest).all fun dir => enters (flag s &&
                (comesBefore (enters true) path (.dir entries) (dir.drop path.length)).all fun d => !ends d) dir := by
            rw [Bool.eq_iff_iff, List.all_eq_true, List.all_eq_true]
            exact forall₂_congr fun dir hdir => by rw [hsame dir hdir]
          rw [hall]

theorem Observes.observe_walkEntries (h : Observes enter visit observe target data effect)
    (hflag : Flagged enter visit flag enters ends) :
    ∀ {entries : Entries δ} {path rest : Path} {name : List Char} {s : σ}, entries.Valid →
      entries.at? name rest = some (.file data) → path ++ name :: rest = target →
      observe (walkEntries enter visit path entries s) =
        if (way (path ++ [name]) rest).all fun dir => enters (flag s &&
            (comesBeforeEntries (enters true) path entries name (dir.drop (path.length + 1))).all fun d => !ends d) dir
          then effect (observe s) else observe s
  | .nil, _, _, _, _, _, hat, _ => by
      rw [Entries.at?] at hat
      cases hat
  | .cons first tree others, path, rest, name, s, hvalid, hat, htarget => by
      obtain ⟨hfirst, htree, hothers⟩ := hvalid
      rw [walkEntries]
      by_cases hname : first = name
      · -- the file is below the first entry, and the others do not matter
        subst hname
        rw [Entries.at?_head] at hat
        rw [h.walkEntries_of_notMem htarget hothers hfirst,
          h.observe_walk hflag htree hat (by rw [List.append_assoc]; exact htarget)]
        simp only [comesBeforeEntries, if_true, List.length_append, List.length_singleton]
      · rw [Entries.at?, if_neg hname] at hat
        have hnot : ¬ path ++ [first] <+: target := by
          rintro ⟨rest', hrest'⟩
          rw [← htarget, List.append_assoc, List.append_cancel_left_eq, List.singleton_append,
            List.cons.injEq] at hrest'
          exact hname hrest'.1
        rw [h.observe_walkEntries hflag hothers hat htarget, h.walk_of_not_isPrefix hnot htree, hflag.flag_walk]
        simp only [comesBeforeEntries, if_neg hname, List.all_append, Bool.and_assoc]

end

end Walk

end FileTree

end Builderbot
