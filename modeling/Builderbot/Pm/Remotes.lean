import Builderbot.Pm.UncommittedWork

/-!
# The remotes of the repositories

`pm` knows a repository by a short name that it takes from the end of its URL, and the state has the URL of the
remote with it. `resolveRepo` finds a repository by its short name and does not look at the URL, so that an
input can be answered with the repository of another remote.

`Disk` adds to the workspace which remote each bare clone was made from. `run_asked` follows it through a run
in which no `add` is about to register another remote under the short name of the input, or in its place.
-/

namespace Builderbot.Pm

open Program

open Git (Text)

/-! ## Remotes -/

/-- One `/` and then one `.git` at the end are gone. -/
def stripEnd (url : Text) : Text :=
  let reversed := match url.reverse with
    | '/' :: rest => rest
    | reversed => reversed
  match reversed with
  | 't' :: 'i' :: 'g' :: '.' :: rest => rest.reverse
  | reversed => reversed.reverse

/-- The ways in which the URL of a repository on GitHub can begin. -/
def githubForms : List Text :=
  ["git@github.com:".toList, "https://github.com/".toList, "http://github.com/".toList]

/-- What a URL stands for: whether it is on GitHub, and the rest of it without what does not matter at the end. -/
def remoteOf (url : Text) : Bool × Text :=
  match githubForms.findSome? url.dropPrefix? with
  | some rest => (true, stripEnd rest)
  | none => (false, stripEnd url)

/-- The URLs are of one remote. -/
def SameRemote (url url' : Text) : Prop := remoteOf url = remoteOf url'

instance : DecidableRel SameRemote := fun url url' => inferInstanceAs (Decidable (remoteOf url = remoteOf url'))

/-- A repository on GitHub is the same one however its URL begins. -/
theorem remoteOf_github {form : Text} (h : form ∈ githubForms) (rest : Text) :
    remoteOf (form ++ rest) = (true, stripEnd rest) := by
  have hself : (form ++ rest).dropPrefix? form = some rest := List.dropPrefix?_append_of_beq rest (beq_self_eq_true form)
  -- the forms before this one do not fit
  have hfind : githubForms.findSome? (form ++ rest).dropPrefix? = some rest := by
    rw [githubForms, List.mem_cons, List.mem_cons, List.mem_singleton] at h
    rcases h with rfl | rfl | rfl
    · rw [githubForms, List.findSome?_cons_of_isSome (by rw [hself]; rfl), hself]
    · rw [githubForms, List.findSome?_cons_of_isNone rfl, List.findSome?_cons_of_isSome (by rw [hself]; rfl), hself]
    · rw [githubForms, List.findSome?_cons_of_isNone rfl, List.findSome?_cons_of_isNone rfl,
        List.findSome?_cons_of_isSome (by rw [hself]; rfl), hself]
  rw [remoteOf, hfind]

/-- A URL on GitHub and its alternative. -/
theorem sameRemote_alternateUrl {url alt : Text} (h : alternateUrl url = some alt) : SameRemote alt url := by
  obtain ⟨form, form', rest, hform, hform', rfl, rfl⟩ :
      ∃ form form' rest, form ∈ githubForms ∧ form' ∈ githubForms ∧ url = form ++ rest ∧ alt = form' ++ rest := by
    have hdrop : ∀ {form rest : Text}, url.dropPrefix? form = some rest → url = form ++ rest := by
      intro form rest hrest
      obtain ⟨form', rfl, hbeq⟩ := List.dropPrefix?_eq_some_iff.mp hrest
      rw [eq_of_beq hbeq]
    rw [alternateUrl] at h
    split at h
    case h_1 rest hrest =>
      cases h
      exact ⟨_, _, rest, .head _, .tail _ (.head _), hdrop hrest, rfl⟩
    case h_2 =>
      split at h
      case h_1 rest hrest =>
        cases h
        rcases Option.or_eq_some_iff.mp hrest with hrest | ⟨-, hrest⟩
        · exact ⟨_, _, rest, .tail _ (.head _), .head _, hdrop hrest, rfl⟩
        · exact ⟨_, _, rest, .tail _ (.tail _ (.head _)), .head _, hdrop hrest, rfl⟩
      case h_2 => cases h
  rw [SameRemote, remoteOf_github hform, remoteOf_github hform']

/-! ## Short names -/

/-- A text has no `.git` at its end. -/
def NoGit (reversed : Text) : Prop := ∀ rest, reversed ≠ "tig.".toList ++ rest

/-- A name without the ending stays as it is. -/
theorem trimGit_eq_self {reversed : Text} (h : NoGit reversed) : trimGit reversed = reversed := by
  rw [trimGit]
  exact fun rest heq => h rest heq

/-- All endings are taken off. -/
theorem noGit_trimGit (reversed : Text) : NoGit (trimGit reversed) := by
  fun_induction trimGit reversed with
  | case1 rest ih => exact ih
  | case2 reversed hno => exact hno

/-- The last component of a name without the ending has none either. -/
theorem NoGit.takeWhile {reversed : Text} (h : NoGit reversed) (p : Char → Bool) : NoGit (reversed.takeWhile p) := by
  intro rest heq
  refine h (rest ++ reversed.dropWhile p) ?_
  rw [← List.append_assoc, ← heq, List.takeWhile_append_dropWhile]

/-- A plain name is its own repository name. -/
theorem repoNameFromUrl_eq_self {name : Text} (hslash : '/' ∉ name) (hgit : NoGit name.reverse) :
    repoNameFromUrl name = name := by
  have hne : ∀ c ∈ name.reverse, decide (c = '/') = false := fun c hc =>
    decide_eq_false fun heq => hslash (heq ▸ List.mem_reverse.mp hc)
  have hdrop : name.reverse.dropWhile (fun c => c = '/') = name.reverse :=
    List.dropWhile_eq_self_iff.mpr fun hlen => by simpa using hne _ (List.getElem_mem hlen)
  rw [repoNameFromUrl, hdrop, trimGit_eq_self hgit, List.takeWhile_eq_self_iff.mpr, List.reverse_reverse]
  intro c hc
  simpa using hne c hc

/-- The short name of a URL is taken for itself. -/
theorem existingName_repoNameFromUrl (url : Text) : existingName (repoNameFromUrl url) = repoNameFromUrl url := by
  have hslash := slash_notMem_repoNameFromUrl url
  have hgit : NoGit (repoNameFromUrl url).reverse := by
    rw [repoNameFromUrl, List.reverse_reverse]
    exact (noGit_trimGit _).takeWhile _
  rw [existingName]
  split
  · exact repoNameFromUrl_eq_self hslash hgit
  · rfl

/-- The name of a name is the name. -/
theorem existingName_existingName (repoInput : Text) : existingName (existingName repoInput) = existingName repoInput := by
  rw [existingName.eq_1 repoInput]
  split
  case isTrue => exact existingName_repoNameFromUrl repoInput
  case isFalse hsimple => rw [existingName, if_neg hsimple]

/-! ## What an input asks for -/

/-- The URL that an input asks for: itself, or the one on GitHub that `org/repo` is short for. -/
def asked (input : Text) : Option Text :=
  if "git@".toList.isPrefixOf input || "https://".toList.isPrefixOf input || "http://".toList.isPrefixOf input then
    some input
  else if input.contains '/' && !input.contains ':' && !Lib.Text.contains "//".toList input then
    some ("https://github.com/".toList ++ input ++ ".git".toList)
  else none

variable {state : State} {input url : Text}

theorem resolveRepo_asked (h : asked input = some url) :
    resolveRepo state input =
      match state.repos.lookup input with
      | some entry => ⟨entry.name, entry.url, false⟩
      | none => ⟨repoNameFromUrl url, url, (state.repos.lookup (repoNameFromUrl url)).isNone⟩ := by
  rw [resolveRepo]
  cases state.repos.lookup input with
  | some entry => rfl
  | none =>
    rw [asked] at h
    dsimp only
    split
    case isTrue hurl =>
      rw [if_pos hurl] at h
      cases h
      rfl
    case isFalse hurl =>
      rw [if_neg hurl] at h
      split
      case isTrue hshort =>
        rw [if_pos hshort] at h
        cases h
        rfl
      case isFalse hshort =>
        rw [if_neg hshort] at h
        cases h

/-- Another input names a repository of the state. -/
theorem resolveRepo_of_asked_none (h : asked input = none) : (resolveRepo state input).needsClone = false := by
  rw [resolveRepo]
  rw [asked] at h
  split
  · rfl
  split
  case isTrue hurl =>
    rw [if_pos hurl] at h
    cases h
  case isFalse hurl =>
    rw [if_neg hurl] at h
    split
    case isTrue hshort =>
      rw [if_pos hshort] at h
      cases h
    case isFalse => rfl

/-- What has to be cloned is asked for, and has no name in the state. -/
theorem resolveRepo_eq_of_needsClone (h : (resolveRepo state input).needsClone = true) :
    ∃ url, asked input = some url ∧ resolveRepo state input = ⟨repoNameFromUrl url, url, true⟩ ∧
      state.repos.lookup input = none ∧ state.repos.lookup (repoNameFromUrl url) = none := by
  rcases hasked : asked input with _ | url
  · rw [resolveRepo_of_asked_none hasked] at h
    cases h
  refine ⟨url, rfl, ?_⟩
  rw [resolveRepo_asked hasked] at h ⊢
  rcases hinput : state.repos.lookup input with _ | entry
  · rw [hinput] at h
    refine ⟨?_, rfl, Option.isNone_iff_eq_none.mp h⟩
    show Builderbot.Pm.ResolvedRepo.mk _ _ _ = _
    rw [show (state.repos.lookup (repoNameFromUrl url)).isNone = true from h]
  · rw [hinput] at h
    cases h

/-- A remote that is to be registered: under which name, and with which bare clone or checkout. -/
structure Offer where
  name : Text
  url : Text
  bare : Path

/-- What an `add` is asked to register, if the name is free; a clone that fails may keep it from that. An existing checkout has
the URL that `git` says. -/
def AddArgs.offer (base : Path) (outcome : Call → Outcome) (args : AddArgs) (state : State) : Option Offer :=
  match args.existing with
  | some extPath =>
    if (state.repos.lookup (existingName args.repoInput)).isSome then none
    else
      let url := (outcome (.remoteUrl extPath)).url.getD ("local:".toList ++ extPath.flatMap fun name => '/' :: name)
      some ⟨existingName args.repoInput, url, if args.worktree then extPath else []⟩
  | none =>
    (asked args.repoInput).bind fun url =>
      let name := repoNameFromUrl url
      if (state.repos.lookup args.repoInput).isSome || (state.repos.lookup name).isSome then none
      else some ⟨name, url, barePath base name⟩

variable {args : AddArgs} {offer : Offer}

/-- The name of an offer is free, and it is taken for itself. -/
theorem offer_name {base : Path} {outcome : Call → Outcome} (h : args.offer base outcome state = some offer) :
    state.repos.lookup offer.name = none ∧ existingName offer.name = offer.name := by
  rw [AddArgs.offer] at h
  split at h
  case h_1 extPath _ =>
    split at h
    case isTrue => cases h
    case isFalse hnone =>
      cases h
      exact ⟨by simpa using hnone, existingName_existingName _⟩
  case h_2 =>
    obtain ⟨url, -, h⟩ := Option.bind_eq_some_iff.mp h
    dsimp only at h
    split at h
    case isTrue => cases h
    case isFalse hnone =>
      cases h
      rw [Bool.or_eq_true, not_or] at hnone
      exact ⟨by simpa using hnone.2, existingName_repoNameFromUrl _⟩

/-- Without an existing checkout, what is asked for is offered. -/
theorem offer_asked {base : Path} {outcome : Call → Outcome}
    (hexisting : args.existing = none) (h : args.offer base outcome state = some offer) :
    asked args.repoInput = some offer.url ∧ offer.bare = barePath base (repoNameFromUrl offer.url) := by
  rw [AddArgs.offer, hexisting] at h
  obtain ⟨url, hasked, h⟩ := Option.bind_eq_some_iff.mp h
  dsimp only at h
  split at h
  · cases h
  · cases h
    exact ⟨hasked, rfl⟩

/-! ## What the commands register -/

/-- A command that has read the state file writes states that meet `R`, and clones as `C` says. -/
def Writes (R : State → Prop) (C : Text → Path → Prop) : Call → Prop
  | .load => False
  | .save state => R state
  | .tryCloneBare url dest => C url dest
  | _ => True

/-- The replies that say which remote an existing checkout has. -/
def Told (outcome : Call → Outcome) : (c : Call) → Reply c → Prop
  | .canonicalize path, reply => ∀ canonical, reply = some canonical → canonical = path
  | .remoteUrl path, reply => reply = (outcome (.remoteUrl path)).url
  | _, _ => True

/-- A part of a command that writes and clones only what it may. -/
abbrev Registers (R : State → Prop) (C : Text → Path → Prop) (outcome : Call → Outcome) {α : Type} (Q : α → Prop)
    (x : Command α) : Prop := x.Sound (Writes R C) (Told outcome) Q

/-- What a state says of its repositories, apart from how many slots each may have. -/
structure OfRepos (R : State → Prop) : Prop where
  congr : ∀ {state state' : State}, R state → state'.repos = state.repos → R state'
  grow : ∀ {state : State} {repo : Text} {entry : RepoEntry}, state.repos.lookup repo = some entry → R state →
    R { state with repos := state.repos.insert repo { entry with maxSlots := entry.maxSlots + 1 } }

theorem OfRepos.setSlots {R : State → Prop} (hR : OfRepos R) (h : R state) (repo : Text) (slots : List Slot) :
    R (state.setSlots repo slots) :=
  hR.congr h rfl

variable {c : Call}

section Registers

variable {R : State → Prop} {C : Text → Path → Prop} {outcome : Call → Outcome} {base : Path}
variable {α β : Type} {Q : α → Prop} {project repo branch : Text}

/-- The rule for a call that may be made here. -/
theorem registers_ask_bind {f : Reply c → Command α} (hc : Writes R C c)
    (hf : ∀ r, Told outcome c r → Registers R C outcome Q (f r)) : Registers R C outcome Q (ask c >>= f) :=
  sound_perform_bind.mpr ⟨hc, hf⟩

theorem registers_exitStatus_bind {status : Reply c → ExitStatus} {f : Bool → Command α}
    (hc : Writes R C c) (hf : ∀ success, Registers R C outcome Q (f success)) :
    Registers R C outcome Q (exitStatus c status >>= f) := by
  refine sound_bind.mpr (registers_ask_bind hc fun r _ => ?_)
  split
  · exact hf _
  · trivial

/-- The rule for a call that has to succeed. -/
theorem registers_askOk_bind {e : PmError} {success : Reply c → Bool} {f : Unit → Command α}
    (hc : Writes R C c) (hf : Registers R C outcome Q (f ())) : Registers R C outcome Q (askOk c e success >>= f) := by
  refine sound_bind.mpr (registers_ask_bind hc fun r _ => ?_)
  exact sound_require.mpr fun _ => hf

/-- A state whose repositories are right may be saved. -/
theorem registers_save (h : R state) : Registers R C outcome (fun _ => True) state.save := by
  rw [State.save, askOk]
  refine registers_ask_bind h fun r _ => ?_
  exact sound_require.mpr fun _ => trivial

/-! ### Slots -/

theorem checkout_registers (worktree : Path) (branch : Text) :
    Registers R C outcome (fun _ => True) (checkout worktree branch) := by
  rw [checkout]
  refine registers_ask_bind trivial fun _ _ => registers_exitStatus_bind trivial fun success => ?_
  split
  · trivial
  refine registers_exitStatus_bind trivial fun success => ?_
  split
  · trivial
  refine registers_ask_bind trivial fun _ _ => registers_exitStatus_bind trivial fun success => ?_
  exact sound_require.mpr fun _ => trivial

theorem addWorktree_registers (bare worktree : Path) (branch : Text) :
    Registers R C outcome (fun _ => True) (addWorktree bare worktree branch) := by
  rw [addWorktree]
  refine registers_ask_bind trivial fun _ _ => registers_exitStatus_bind trivial fun success => ?_
  split
  · trivial
  refine registers_ask_bind trivial fun _ _ => registers_exitStatus_bind trivial fun success => ?_
  exact sound_require.mpr fun _ => trivial

theorem prepareSlot_registers (slot bare : Path) (branch : Text) :
    Registers R C outcome (fun _ => True) (prepareSlot slot bare branch) := by
  rw [prepareSlot]
  refine registers_ask_bind trivial fun _ _ => ?_
  split
  · exact checkout_registers _ _
  · exact addWorktree_registers _ _ _

/-- Filling the pool registers nothing. -/
theorem ensureSlots_registers (hR : OfRepos R) (h : R state) :
    Registers R C outcome (fun state' => R state') (ensureSlots base state repo) := by
  rw [ensureSlots]
  split
  · trivial
  · exact registers_ask_bind trivial fun now _ => hR.setSlots h _ _

/-- Taking a slot registers nothing. -/
theorem takeSlot_registers (hR : OfRepos R) (h : R state) (entry : RepoEntry) (slot : Slot) (i : ℕ)
    (needsCheckout : Bool) :
    Registers R C outcome (fun state' => R state') (takeSlot state entry repo project branch slot i needsCheckout) := by
  rw [takeSlot]
  refine registers_ask_bind trivial fun now _ => ?_
  split
  · exact (prepareSlot_registers _ _ _).bind fun _ _ => hR.setSlots h _ _
  · exact hR.setSlots h _ _

/-- Acquiring a slot registers nothing. -/
theorem acquireSlot_registers (hR : OfRepos R) (h : R state) :
    Registers R C outcome (fun result => R result.1) (acquireSlot base state repo project branch) := by
  rw [acquireSlot]
  refine (ensureSlots_registers hR h).bind fun state h => ?_
  split
  · trivial
  dsimp only
  split
  · exact (takeSlot_registers hR h _ _ _ _).bind fun state h => h
  split
  · exact (takeSlot_registers hR h _ _ _ _).bind fun state h => h
  split
  · trivial
  · exact h

theorem evictOwner_registers (hR : OfRepos R) (h : R state) (owner : Option Text) :
    Registers R C outcome (fun state' => R state') (evictOwner state repo owner) := by
  cases owner with
  | none => exact h
  | some owner =>
    have hunlist : R (state.unlistRepo owner repo) := hR.congr h (State.repos_unlistRepo _ _)
    rw [evictOwner]
    refine registers_ask_bind trivial fun there _ => ?_
    split
    · exact registers_ask_bind trivial fun _ _ => hunlist
    · exact hunlist

/-- An eviction registers nothing. -/
theorem executeEviction_registers (hR : OfRepos R) (h : R state) (evictIdx : ℕ) :
    Registers R C outcome (fun result => R result.1) (executeEviction state repo evictIdx project branch) := by
  rw [executeEviction]
  split
  case h_2 => trivial
  case h_1 =>
    refine (prepareSlot_registers _ _ _).bind fun _ _ => (evictOwner_registers hR h _).bind fun state h => ?_
    exact registers_ask_bind trivial fun now _ => hR.setSlots h _ _

theorem growAndAcquire_registers (hR : OfRepos R) (h : R state) :
    Registers R C outcome (fun result => R result.1) (growAndAcquire base state repo project branch) := by
  rw [growAndAcquire]
  split
  case h_1 => trivial
  case h_2 entry hentry =>
    refine (ensureSlots_registers hR (hR.grow hentry h)).bind fun state h => ?_
    split
    · trivial
    · exact (takeSlot_registers hR h _ _ _ _).bind fun state h => h

/-- Resolving a conflict registers nothing. -/
theorem resolveEviction_registers (hR : OfRepos R) (h : R state) (candidates : List EvictionCandidate)
    (currentMaxSlots : ℕ) (opts : AddConflictOpts) :
    Registers R C outcome (fun result => R result.1)
      (resolveEviction base state repo candidates currentMaxSlots project branch opts) := by
  rw [resolveEviction]
  split
  · exact growAndAcquire_registers hR h
  split
  · split
    · exact executeEviction_registers hR h _
    · trivial
  refine registers_ask_bind trivial fun terminal _ => ?_
  split
  · rw [interactiveEvictionMenu]
    refine registers_ask_bind trivial fun selection _ => ?_
    split
    · trivial
    split
    · exact executeEviction_registers hR h _
    split
    · exact growAndAcquire_registers hR h
    · trivial
  · trivial

/-! ### Commands -/

/-- The last step of an add saves what is registered already. -/
theorem linkAndSave_registers (h : R state) (target : Path) :
    Registers R C outcome (fun _ => True) (linkAndSave state project repo target) := by
  rw [linkAndSave]
  refine registers_askOk_bind trivial (registers_ask_bind trivial fun there _ => ?_)
  split
  · exact registers_ask_bind trivial fun _ _ => registers_askOk_bind trivial (registers_save h)
  · exact registers_askOk_bind trivial (registers_save h)

/-- `add_to_pool` registers nothing. -/
theorem addToPool_registers (hR : OfRepos R) (h : R state) (opts : AddConflictOpts) :
    Registers R C outcome (fun _ => True) (addToPool base state project repo branch opts) := by
  rw [addToPool, slotFor]
  refine Sound.bind (Q := fun result => R result.1) ?_ ?_
  · refine (acquireSlot_registers hR (hR.congr h (State.repos_listRepo _ _ _))).bind ?_
    rintro ⟨state, result⟩ h
    cases result with
    | acquired index => exact h
    | needsEviction candidates currentMaxSlots => exact resolveEviction_registers hR h _ _ _
  · rintro ⟨state, index⟩ h
    dsimp only
    split
    · exact linkAndSave_registers h _
    · trivial

/-- The repository of an offer may be registered, and cloned. -/
structure Admits (R : State → Prop) (C : Text → Path → Prop) (state : State) (offer : Offer) : Prop where
  entry : ∀ entry : RepoEntry, entry.name = offer.name → entry.barePath = offer.bare →
    (entry.url = offer.url ∨ alternateUrl offer.url = some entry.url) →
    R { state with repos := state.repos.insert offer.name entry }
  clone : ∀ url, url = offer.url ∨ alternateUrl offer.url = some url → C url offer.bare

/-- What may be registered depends on the repositories only. -/
theorem Admits.congr {state' : State} (hR : OfRepos R) (h : Admits R C state offer)
    (hrepos : state'.repos = state.repos) : Admits R C state' offer where
  entry entry hname hbare hurl := by
    refine hR.congr (h.entry entry hname hbare hurl) ?_
    show state'.repos.insert offer.name entry = state.repos.insert offer.name entry
    rw [hrepos]
  clone := h.clone

/-- Every name of a repository is the name in its entry, and is taken for itself. -/
def State.Named (state : State) : Prop :=
  ∀ repo entry, state.repos.lookup repo = some entry → entry.name = repo ∧ existingName repo = repo

/-- `clone_bare` answers the URL that it cloned, the given one or its alternate. -/
theorem cloneBare_registers {url : Text} {dest : Path} (hclone : ∀ u, u = url ∨ alternateUrl url = some u → C u dest) :
    Registers R C outcome (fun u => u = url ∨ alternateUrl url = some u) (cloneBare url dest) := by
  rw [cloneBare]
  refine registers_ask_bind (hclone url (.inl rfl)) fun cloned _ => ?_
  split
  · exact Or.inl rfl
  split
  case h_1 alt halt =>
    exact registers_ask_bind (hclone alt (.inr halt)) fun cloned _ => sound_require_bind.mpr fun _ => Or.inr halt
  case h_2 => trivial

/-- The canonical path is the path given. -/
theorem existingCheckout_registers (extPath : Path) :
    Registers R C outcome (fun canonical => canonical = extPath) (existingCheckout extPath) := by
  rw [existingCheckout]
  refine registers_ask_bind trivial fun canonical hcanonical => ?_
  split
  · trivial
  case h_2 canonical => exact registers_ask_bind trivial fun _ _ => sound_require_bind.mpr fun _ => hcanonical canonical rfl

theorem existingUrl_registers (canonical : Path) :
    Registers R C outcome
      (fun url => url = (outcome (.remoteUrl canonical)).url.getD
        ("local:".toList ++ canonical.flatMap fun name => '/' :: name)) (existingUrl canonical) :=
  registers_ask_bind trivial fun _ hurl => hurl ▸ rfl

/-- A new project brings no repository. -/
theorem ensureProject_registers (hR : OfRepos R) (h : R state) (project : Text) :
    Registers R C outcome (fun state' => state'.repos = state.repos) (ensureProject state project) := by
  rw [ensureProject]
  split
  case isTrue => exact rfl
  case isFalse =>
    refine registers_ask_bind trivial fun _ _ => sound_require_bind.mpr fun _ => ?_
    have hinsert : R (state.insertProject project) := hR.congr h rfl
    exact (registers_save hinsert).bind fun _ _ => rfl

/-- An existing checkout that is linked is registered with the URL that `git` says. -/
theorem addExisting_registers (hR : OfRepos R) (h : R state) {repoInput : Text} {extPath : Path}
    (hadmits : state.repos.lookup (existingName repoInput) = none →
      Admits R C state ⟨existingName repoInput, (outcome (.remoteUrl extPath)).url.getD
        ("local:".toList ++ extPath.flatMap fun name => '/' :: name), []⟩) :
    Registers R C outcome (fun _ => True) (addExisting state project repoInput extPath) := by
  rw [addExisting]
  refine (existingCheckout_registers extPath).bind ?_
  rintro canonical rfl
  refine (existingUrl_registers _).bind ?_
  rintro _ rfl
  refine Sound.bind (Q := fun state' => R state') ?_ fun state' h' => ?_
  · rw [registerExternal]
    split
    case h_1 hnone => exact (hadmits hnone).entry _ rfl rfl (.inl rfl)
    case h_2 => exact sound_require_bind.mpr fun _ => h
  · exact linkAndSave_registers (hR.congr h' (State.repos_listRepo _ _ _)) _

/-- `add --existing --worktree` registers its offer, where the name is new. -/
theorem addExistingWorktree_registers (hR : OfRepos R) (h : R state) {user repoInput : Text}
    {branchOverride : Option Text} {extPath : Path} {opts : AddConflictOpts}
    (hadmits : state.repos.lookup (existingName repoInput) = none →
      Admits R C state ⟨existingName repoInput, (outcome (.remoteUrl extPath)).url.getD
        ("local:".toList ++ extPath.flatMap fun name => '/' :: name), extPath⟩) :
    Registers R C outcome (fun _ => True)
      (addExistingWorktree base state user project repoInput branchOverride extPath opts) := by
  rw [addExistingWorktree]
  refine (existingCheckout_registers extPath).bind ?_
  rintro canonical rfl
  refine (existingUrl_registers _).bind ?_
  rintro _ rfl
  refine Sound.bind (Q := fun state' => R state') ?_ fun state' h' => addToPool_registers hR h' opts
  rw [registerCheckout]
  split
  case h_1 hnone =>
    have hentry := (hadmits hnone).entry ⟨_, _, canonical, defaultMaxSlots, false, some canonical⟩ rfl rfl (.inl rfl)
    exact (registers_save hentry).bind fun _ _ => hentry
  case h_2 => exact sound_require_bind.mpr fun _ => h

/-- An add of a clone registers its offer, where the name is new. -/
theorem addPooled_registers (hR : OfRepos R) (h : R state) (hexisting : args.existing = none)
    (hadmits : ∀ offer, args.offer base outcome state = some offer → Admits R C state offer) :
    Registers R C outcome (fun _ => True)
      (addPooled base state args.user args.project args.repoInput args.branchOverride args.opts
        (resolveRepo state args.repoInput)) := by
  rw [addPooled]
  refine Sound.bind (Q := fun state' => R state') ?_ fun state' h' => addToPool_registers hR h' args.opts
  rw [ensureCloned]
  split
  case isFalse => exact sound_require_bind.mpr fun _ => h
  case isTrue hclone =>
    obtain ⟨url, hasked, hresolved, hinput, hname⟩ := resolveRepo_eq_of_needsClone hclone
    have hoffer : args.offer base outcome state =
        some ⟨repoNameFromUrl url, url, barePath base (repoNameFromUrl url)⟩ := by
      rw [AddArgs.offer, hexisting, hasked]
      show ite _ _ _ = _
      rw [hinput, hname]
      rfl
    rw [hresolved]
    refine (cloneBare_registers (hadmits _ hoffer).clone).bind fun u hu => ?_
    have hentry := (hadmits _ hoffer).entry
      ⟨u, repoNameFromUrl url, barePath base (repoNameFromUrl url), defaultMaxSlots, false, none⟩ rfl rfl hu
    exact (registers_save hentry).bind fun _ _ => hentry

/-- Removing links registers nothing. -/
theorem removeLinks_registers (project : Text) (repos : List Text) :
    Registers R C outcome (fun _ => True) (removeLinks project repos) := by
  induction repos with
  | nil => trivial
  | cons repo repos ih =>
    rw [removeLinks]
    refine registers_ask_bind trivial fun there _ => ?_
    split
    · exact registers_ask_bind trivial fun _ _ => ih
    · exact ih

theorem orphans_registers (names : List Text) : Registers R C outcome (fun _ => True) (orphans names) := by
  induction names with
  | nil => trivial
  | cons name names ih =>
    rw [orphans]
    exact registers_ask_bind trivial fun dir _ => ih.bind fun _ _ => trivial

theorem OfRepos.dropProjects (hR : OfRepos R) (h : R state) (names : List Text) :
    R (names.foldl State.dropProject state) := by
  induction names generalizing state with
  | nil => exact h
  | cons name names ih => exact ih (hR.congr h rfl)

/-- What an add offers depends on the repositories only. -/
theorem offer_congr {state' : State} (h : state'.repos = state.repos) :
    args.offer base outcome state' = args.offer base outcome state := by
  rw [AddArgs.offer, AddArgs.offer, h]

/-- A command is about to register a remote. -/
def PmCommand.Offers (base : Path) (outcome : Call → Outcome) (state : State) : PmCommand → Offer → Prop
  | .add args, offer => args.offer base outcome state = some offer
  | _, _ => False

/-- A command reads the state file, and then registers no more than what it offers. -/
theorem exists_program_registers (base : Path) (c : PmCommand) :
    ∃ f : State → Command Unit, c.program base = loadOrErr >>= f ∧
      ∀ {R : State → Prop} {C : Text → Path → Prop} {outcome : Call → Outcome} {state : State}, OfRepos R → R state →
        state.Named → (∀ offer, c.Offers base outcome state offer → Admits R C state offer) →
        Registers R C outcome (fun _ => True) (f state) := by
  cases c with
  | new name =>
    refine ⟨_, rfl, fun {R C outcome state} hR h _ _ => ?_⟩
    refine Sound.bind (Q := fun state' => R state') ?_ fun state' h' => ?_
    · have hdrop : R (state.dropProject name) := hR.congr h rfl
      rw [dropOrphan]
      split
      · refine registers_ask_bind trivial fun _ _ => sound_require_bind.mpr fun _ => ?_
        exact (registers_save hdrop).bind fun _ _ => hdrop
      · exact h
    · exact registers_askOk_bind trivial (registers_save (hR.congr h' rfl))
  -- the repositories are those of the state read, also after the project is added
  | add args =>
    refine ⟨_, rfl, fun {R C outcome state} hR h hnamed hadmits => ?_⟩
    refine (ensureProject_registers hR h args.project).bind fun state' hrepos => ?_
    replace h : R state' := hR.congr h hrepos
    replace hadmits : ∀ offer, args.offer base outcome state' = some offer → Admits R C state' offer :=
      fun offer hoffer => (hadmits offer (by rwa [PmCommand.Offers, ← offer_congr hrepos])).congr hR hrepos
    split
    case h_1 extPath hexisting =>
      have hoffer : state'.repos.lookup (existingName args.repoInput) = none → args.offer base outcome state' =
          some ⟨existingName args.repoInput, (outcome (.remoteUrl extPath)).url.getD
            ("local:".toList ++ extPath.flatMap fun name => '/' :: name), if args.worktree then extPath else []⟩ := by
        intro hnone
        rw [AddArgs.offer, hexisting]
        dsimp only
        rw [hnone]
        rfl
      split
      case isTrue hworktree =>
        exact addExistingWorktree_registers hR h fun hnone => hadmits _ (by rw [hoffer hnone, if_pos hworktree])
      case isFalse hworktree =>
        exact addExisting_registers hR h fun hnone => hadmits _ (by rw [hoffer hnone, if_neg hworktree])
    case h_2 hexisting =>
      dsimp only
      split
      case h_1 entry hentry =>
        split
        · split
          · refine addExisting_registers hR h fun hnone => ?_
            rw [(hnamed _ _ (hrepos ▸ hentry)).2, hentry] at hnone
            cases hnone
          · trivial
        · exact addPooled_registers hR h hexisting hadmits
      case h_2 => exact addPooled_registers hR h hexisting hadmits
  | rm name =>
    refine ⟨_, rfl, fun {R C outcome state} hR h _ _ => ?_⟩
    refine Sound.bind (Q := fun state' => R state') ?_ fun state' h' => ?_
    · rw [releaseListed]
      split
      · exact (removeLinks_registers _ _).bind fun _ _ => hR.congr h rfl
      · exact h
    · refine registers_ask_bind trivial fun dir _ => ?_
      have hremove : R (state'.removeProject name) := hR.congr h' rfl
      split
      · exact registers_askOk_bind trivial (registers_save hremove)
      · exact registers_save hremove
  | status =>
    refine ⟨_, rfl, fun {R C outcome state} hR h _ _ => ?_⟩
    refine (orphans_registers _).bind fun orphaned _ => ?_
    split
    · trivial
    · exact registers_save (hR.dropProjects h orphaned)

end Registers

/-! ## The bare clones -/

/-- The workspace, and of which remote each bare clone is. -/
structure Disk where
  world : World := {}
  clones : Table Path Text := ∅

namespace Disk

/-- What is at the destination of a clone is removed before, and what a clone that fails leaves after. -/
def cloned (clones : Table Path Text) : Call → Outcome → Table Path Text
  | .tryCloneBare url dest, o => if o.fails then clones.erase dest else clones.insert dest url
  | _, _ => clones

def handle (d : Disk) (c : Call) (o : Outcome) : Reply c × Disk :=
  ((d.world.handle c o).1, ⟨(d.world.handle c o).2, cloned d.clones c o⟩)

/-- What happens in a workspace. -/
def step (base : Path) (d : Disk) : WorldEvent → Option Disk
  | .command c outcome => some (exec handle outcome (c.program base) { d with world := d.world.autoInit }).2
  | event => (d.world.step base event).map fun world => { d with world }

variable {R : State → Prop} {C : Text → Path → Prop} {K : Table Path Text → Prop} {outcome : Call → Outcome}
variable {base : Path} {d t : Disk} {input url : Text}

/-- The state in the file and the clones are as they are to be. -/
structure Meets (R : State → Prop) (K : Table Path Text → Prop) (d : Disk) : Prop where
  file : ∀ state, d.world.file = .state state → R state
  clones : K d.clones

/-- A clone changes what is at its destination. -/
def Settles (C : Text → Path → Prop) (K : Table Path Text → Prop) : Prop :=
  ∀ clones url dest, C url dest → K clones → K (clones.erase dest) ∧ K (clones.insert dest url)

/-- A call that may be made keeps the clones and the registered repositories right. -/
theorem handle_meets (hK : Settles C K) (h : d.Meets R K) (hc : Writes R C c) :
    Told outcome c (d.handle c (outcome c)).1 ∧ (d.handle c (outcome c)).2.Meets R K := by
  have hsame : (∀ state, c ≠ .save state) → ∀ state, (d.world.handle c (outcome c)).2.file = .state state → R state := by
    intro hno state hstate
    exact h.file state (World.handle_file hno _ ▸ hstate)
  cases c with
  | load => exact hc.elim
  | save state' =>
    refine ⟨trivial, fun state hstate => ?_, h.clones⟩
    change (World.handle d.world (.save state') (outcome (.save state'))).2.file = .state state at hstate
    rw [World.handle] at hstate
    split at hstate
    · split at hstate
      · cases hstate
      · exact h.file state hstate
    · cases hstate
      exact hc
  | tryCloneBare url dest =>
    refine ⟨trivial, hsame (fun _ h => by cases h), ?_⟩
    show K (if _ then _ else _)
    split
    · exact (hK d.clones url dest hc h.clones).1
    · exact (hK d.clones url dest hc h.clones).2
  | canonicalize path =>
    refine ⟨fun canonical hcanonical => ?_, hsame (fun _ h => by cases h), h.clones⟩
    change (if _ then _ else _) = some canonical at hcanonical
    split at hcanonical
    · cases hcanonical
    · exact (Option.some.inj hcanonical).symm
  | remoteUrl path => exact ⟨rfl, hsame (fun _ h => by cases h), h.clones⟩
  | _ => exact ⟨trivial, hsame (fun _ h => by cases h), h.clones⟩

/-- A command that registers no more than what it offers keeps what the state and the clones meet. -/
theorem exec_meets (hK : Settles C K) (hR : OfRepos R) {c : PmCommand} (h : d.Meets R K)
    (hadmits : ∀ state, d.world.file = .state state → state.Named ∧
      ∀ offer, c.Offers base outcome state offer → Admits R C state offer) :
    (exec handle outcome (c.program base) d).2.Meets R K := by
  obtain ⟨f, hprogram, hf⟩ := exists_program_registers base c
  rw [hprogram, exec_bind, loadOrErr, ask, exec_perform_bind]
  cases hload : (d.handle .load (outcome .load)).1 with
  | none => exact h
  | some state =>
    change (if (outcome .load).fails then none else d.world.file.load) = some state at hload
    split at hload
    · cases hload
    have hfile := StateFile.eq_state_of_load hload
    obtain ⟨hnamed, hoffers⟩ := hadmits state hfile
    exact (exec_of_sound_outcome (fun _ _ hs hc => handle_meets hK hs hc) (hf hR (h.file state hfile) hnamed hoffers)
      h).1

/-! ## Runs that keep the remotes apart -/

/-- A repository with the name and the bare clone would answer the input, or be in the place of its clone. -/
def Near (base : Path) (input url name : Text) (bare : Path) : Prop :=
  name = input ∨ name = repoNameFromUrl url ∨ bare = barePath base (repoNameFromUrl url)

/-- A command is not asked to register another remote than the one that the input asks for, where that would be near. -/
def Apart (base : Path) (input url : Text) (d : Disk) : WorldEvent → Prop
  | .command c outcome => ∀ offer, c.Offers base outcome d.world.stored offer →
      Near base input url offer.name offer.bare → SameRemote offer.url url
  | _ => True

/-- What is kept when a remote is added: the entries, but for the number of their slots, and the bare clones of other
remotes. A state file that is broken has no entries. -/
structure Kept (url : Text) (d t : Disk) : Prop where
  entries : ∀ state, t.world.file = .state state → ∀ repo entry, d.world.stored.repos.lookup repo = some entry →
    ∃ maxSlots, state.repos.lookup repo = some { entry with maxSlots }
  clones : ∀ path u, d.clones.lookup path = some u → ¬ SameRemote u url → t.clones.lookup path = some u

/-- The input is answered with the repository that it asks for: the entry that is selected is of the same remote,
and adding it keeps what there is of others. -/
structure Answers (base : Path) (input url : Text) (d : Disk) : Prop where
  selects : (resolveRepo d.world.stored input).needsClone = false →
    ∃ entry, d.world.stored.repos.lookup (resolveRepo d.world.stored input).name = some entry ∧ SameRemote entry.url url
  keeps : ∀ args outcome t, args.repoInput = input → args.existing = none →
    d.step base (.command (.add args) outcome) = some t → Kept url d t

/-- The repositories near the input are of its remote. -/
structure Serves (base : Path) (input url : Text) (state : State) : Prop where
  named : state.Named
  same : ∀ repo entry, state.repos.lookup repo = some entry → Near base input url repo entry.barePath →
    SameRemote entry.url url

/-- So is the bare clone, if there is one. -/
def ClonesSame (base : Path) (url : Text) (clones : Table Path Text) : Prop :=
  ∀ u, clones.lookup (barePath base (repoNameFromUrl url)) = some u → SameRemote u url

/-- The clones that a run makes in the place of the remote. -/
def SameAt (base : Path) (url u : Text) (dest : Path) : Prop :=
  dest = barePath base (repoNameFromUrl url) → SameRemote u url

theorem serves_ofRepos : OfRepos (Serves base input url) where
  congr {state state'} h hrepos := by
    constructor
    · intro repo entry hentry
      exact h.named repo entry (hrepos ▸ hentry)
    · intro repo entry hentry
      exact h.same repo entry (hrepos ▸ hentry)
  grow {state repo entry} hentry h := by
    have hcases : ∀ key e, (state.repos.insert repo { entry with maxSlots := entry.maxSlots + 1 }).lookup key = some e →
        ∃ e', state.repos.lookup key = some e' ∧ e.name = e'.name ∧ e.url = e'.url ∧ e.barePath = e'.barePath := by
      intro key e he
      by_cases hkey : key = repo
      · subst hkey
        rw [AList.lookup_insert] at he
        cases he
        exact ⟨entry, hentry, rfl, rfl, rfl⟩
      · rw [AList.lookup_insert_ne hkey] at he
        exact ⟨e, he, rfl, rfl, rfl⟩
    constructor
    · intro key e he
      obtain ⟨e', he', hname, -, -⟩ := hcases key e he
      exact hname ▸ h.named key e' he'
    · intro key e he hnear
      obtain ⟨e', he', -, hurl, hbare⟩ := hcases key e he
      exact hurl ▸ h.same key e' he' (hbare ▸ hnear)

theorem clonesSame_settles : Settles (SameAt base url) (ClonesSame base url) := by
  intro clones u dest hu hclones
  constructor
  · intro v hv
    by_cases hdest : barePath base (repoNameFromUrl url) = dest
    · rw [hdest, AList.lookup_erase] at hv
      cases hv
    · rw [AList.lookup_erase_ne hdest] at hv
      exact hclones v hv
  · intro v hv
    by_cases hdest : barePath base (repoNameFromUrl url) = dest
    · rw [hdest, AList.lookup_insert] at hv
      cases hv
      exact hu hdest.symm
    · rw [AList.lookup_insert_ne hdest] at hv
      exact hclones v hv

/-- An offer that is of the same remote where it is near. -/
theorem admits_serves {state : State} (h : Serves base input url state)
    (hname : existingName offer.name = offer.name)
    (hnear : Near base input url offer.name offer.bare → SameRemote offer.url url) :
    Admits (Serves base input url) (SameAt base url) state offer := by
  have hsame : ∀ u, (u = offer.url ∨ alternateUrl offer.url = some u) →
      Near base input url offer.name offer.bare → SameRemote u url := by
    rintro u (rfl | halt) hn
    · exact hnear hn
    · exact (sameRemote_alternateUrl halt).trans (hnear hn)
  constructor
  · intro entry hentry hbare hurl
    constructor
    · intro repo e he
      by_cases hrepo : repo = offer.name
      · subst hrepo
        rw [AList.lookup_insert] at he
        cases he
        exact ⟨hentry, hname⟩
      · rw [AList.lookup_insert_ne hrepo] at he
        exact h.named repo e he
    · intro repo e he hn
      by_cases hrepo : repo = offer.name
      · subst hrepo
        rw [AList.lookup_insert] at he
        cases he
        exact hsame _ hurl (hbare ▸ hn)
      · rw [AList.lookup_insert_ne hrepo] at he
        exact h.same repo e he hn
  · exact fun u hu hdest => hsame u hu (.inr (.inr hdest))

/-- The state in the file after a new workspace has been made, if need be, is the one before. -/
theorem stored_eq_of_autoInit {w : World} {state : State} (h : w.autoInit.file = .state state) : w.stored = state :=
  w.autoInit_stored ▸ World.stored_eq h

theorem Meets.autoInit {R : State → Prop} (h : d.Meets R K) (hempty : R {}) :
    Meets R K { d with world := d.world.autoInit } := by
  refine ⟨fun state hstate => ?_, h.clones⟩
  change d.world.autoInit.file = .state state at hstate
  rw [World.autoInit] at hstate
  split at hstate
  · cases hstate
    exact hempty
  · exact h.file state hstate
  · exact h.file state hstate

theorem serves_empty : Serves base input url {} := ⟨nofun, nofun⟩

theorem Meets.step {event : WorldEvent} (h : d.Meets (Serves base input url) (ClonesSame base url))
    (hapart : d.Apart base input url event) (hstep : d.step base event = some t) :
    t.Meets (Serves base input url) (ClonesSame base url) := by
  cases event with
  | command c outcome =>
    cases hstep
    have hinit := h.autoInit serves_empty
    refine exec_meets clonesSame_settles serves_ofRepos hinit fun state hstate => ?_
    have hserves := hinit.file state hstate
    refine ⟨hserves.named, fun offer hoffer => admits_serves hserves ?_ (hapart offer ?_)⟩
    · cases c with
      | add args => exact (offer_name hoffer).2
      | new | rm | status => exact hoffer.elim
    · rw [stored_eq_of_autoInit hstate]
      exact hoffer
  | edit | commit =>
    obtain ⟨world, hworld, rfl⟩ := Option.map_eq_some_iff.mp hstep
    rw [World.step] at hworld
    exact ⟨fun state hstate => h.file state (World.changeEdits_file hworld ▸ hstate), h.clones⟩
  | removeDir project =>
    rw [Disk.step, World.step, Option.map_some, Option.some.injEq] at hstep
    · subst hstep
      exact ⟨h.file, h.clones⟩
    · intro _ _ h
      cases h

/-- What a state still says of the repositories of another one. -/
def Grown (before state : State) : Prop :=
  ∀ repo entry, before.repos.lookup repo = some entry →
    ∃ maxSlots, state.repos.lookup repo = some { entry with maxSlots }

theorem grown_ofRepos (before : State) : OfRepos (Grown before) where
  congr h hrepos := fun repo entry hentry => by
    rw [hrepos]
    exact h repo entry hentry
  grow {state repo entry} hentry h := by
    intro key e he
    obtain ⟨maxSlots, hlookup⟩ := h key e he
    by_cases hkey : key = repo
    · subst hkey
      rw [hentry, Option.some.injEq] at hlookup
      refine ⟨maxSlots + 1, ?_⟩
      show (state.repos.insert key _).lookup key = _
      rw [AList.lookup_insert, hlookup]
    · refine ⟨maxSlots, ?_⟩
      show (state.repos.insert repo _).lookup key = _
      rw [AList.lookup_insert_ne hkey]
      exact hlookup

/-- The bare clones of other remotes are still there. -/
def ClonesKept (url : Text) (before clones : Table Path Text) : Prop :=
  ∀ path u, before.lookup path = some u → ¬ SameRemote u url → clones.lookup path = some u

theorem clonesKept_settles {before : Table Path Text} (h : ClonesSame base url before) :
    Settles (fun _ dest => dest = barePath base (repoNameFromUrl url)) (ClonesKept url before) := by
  rintro clones u _ rfl hclones
  have hne : ∀ path v, before.lookup path = some v → ¬ SameRemote v url → path ≠ barePath base (repoNameFromUrl url) := by
    rintro _ v hv hother rfl
    exact hother (h v hv)
  constructor
  · intro path v hv hother
    rw [AList.lookup_erase_ne (hne path v hv hother)]
    exact hclones path v hv hother
  · intro path v hv hother
    rw [AList.lookup_insert_ne (hne path v hv hother)]
    exact hclones path v hv hother

/-- Adding the remote that the input asks for. -/
theorem Meets.kept (h : d.Meets (Serves base input url) (ClonesSame base url)) (hasked : asked input = some url)
    (hinput : args.repoInput = input) (hexisting : args.existing = none)
    (hstep : d.step base (.command (.add args) outcome) = some t) : Kept url d t := by
  cases hstep
  have hinit := h.autoInit serves_empty
  have hmeets : Meets (Grown d.world.stored) (ClonesKept url d.clones) { d with world := d.world.autoInit } := by
    refine ⟨fun state hstate repo entry hentry => ⟨entry.maxSlots, ?_⟩, fun _ _ hu _ => hu⟩
    rwa [← stored_eq_of_autoInit hstate]
  suffices hend : Meets (Grown d.world.stored) (ClonesKept url d.clones)
      (exec handle outcome ((PmCommand.add args).program base) { d with world := d.world.autoInit }).2 from
    ⟨hend.file, hend.clones⟩
  refine exec_meets (clonesKept_settles h.clones) (grown_ofRepos d.world.stored) hmeets fun state hstate => ?_
  refine ⟨(hinit.file state hstate).named, fun offer hoffer => ?_⟩
  have hnone := (offer_name hoffer).1
  have hbare : offer.bare = barePath base (repoNameFromUrl url) := by
    obtain ⟨hurl, hbare⟩ := offer_asked hexisting hoffer
    rw [hinput, hasked, Option.some.injEq] at hurl
    rw [hbare, hurl]
  refine ⟨fun entry _ _ _ repo e he => ?_, fun _ _ => hbare⟩
  obtain ⟨maxSlots, hlookup⟩ := hmeets.file state hstate repo e he
  refine ⟨maxSlots, ?_⟩
  show (state.repos.insert offer.name entry).lookup repo = _
  rw [AList.lookup_insert_ne, hlookup]
  rintro rfl
  rw [hnone] at hlookup
  cases hlookup

theorem Meets.answers (h : d.Meets (Serves base input url) (ClonesSame base url)) (hasked : asked input = some url) :
    d.Answers base input url where
  keeps _ _ _ hinput hexisting hstep := h.kept hasked hinput hexisting hstep
  selects hno := by
    have hserves : Serves base input url d.world.stored := by
      rcases hfile : d.world.file with _ | _ | state
      · rw [World.stored, hfile]
        exact serves_empty
      · rw [World.stored, hfile]
        exact serves_empty
      · rw [World.stored_eq hfile]
        exact h.file state hfile
    rw [resolveRepo_asked hasked] at hno ⊢
    rcases hinput : d.world.stored.repos.lookup input with _ | entry
    · rw [hinput] at hno
      obtain ⟨entry, hentry⟩ := Option.isSome_iff_exists.mp (Option.isNone_eq_false_iff.mp hno)
      exact ⟨entry, hentry, hserves.same _ entry hentry (.inr (.inl rfl))⟩
    · refine ⟨entry, ?_, hserves.same input entry hinput (.inl rfl)⟩
      show d.world.stored.repos.lookup entry.name = some entry
      rw [(hserves.named input entry hinput).1]
      exact hinput

/-- A workspace that `pm` has not worked in. -/
structure Fresh (d : Disk) : Prop where
  world : d.world.Fresh
  clones : d.clones = ∅

theorem Fresh.meets (h : d.Fresh) : d.Meets (Serves base input url) (ClonesSame base url) := by
  constructor
  · intro state hstate
    rw [h.world.file] at hstate
    cases hstate
  · intro u hu
    rw [h.clones] at hu
    cases hu

/-- Where no `add` of a run is asked to register another remote near the input, the input is answered with the repository
that it asks for. -/
theorem run_answers {events : List WorldEvent} (hfresh : d.Fresh) (hasked : asked input = some url)
    (hapart : Along (step base) (Apart base input url) d events) (hrun : run (step base) d events = some t) :
    t.Answers base input url :=
  (run_invariant_along (fun _ _ _ h hapart hstep => Meets.step h hapart hstep) hfresh.meets hapart hrun).answers hasked

/-- A project gets a repository on GitHub, which can be cloned only with the other form of its URL. -/
theorem run_answers_alternate :
    ∃ t, run (step [['w']]) {} [.command (.new ['p']) fun _ => {},
        .command (.add { user := ['u'], project := ['p'], repoInput := "o/r".toList }) fun
          | .tryCloneBare url _ => { fails := "https".toList.isPrefixOf url }
          | _ => {}] = some t ∧
      (t.world.stored.repos.lookup ['r']).map RepoEntry.url = some "git@github.com:o/r.git".toList ∧
      t.Answers [['w']] "http://github.com/o/r/".toList "http://github.com/o/r/".toList := by
  obtain ⟨t, hrun, ht⟩ : ∃ t, run (step [['w']]) {} [.command (.new ['p']) fun _ => {},
        .command (.add { user := ['u'], project := ['p'], repoInput := "o/r".toList }) fun
          | .tryCloneBare url _ => { fails := "https".toList.isPrefixOf url }
          | _ => {}] = some t ∧
      decide ((t.world.stored.repos.lookup ['r']).map RepoEntry.url = some "git@github.com:o/r.git".toList) = true :=
    exists_run_of_any (by decide)
  refine ⟨t, hrun, of_decide_eq_true ht, run_answers ⟨⟨rfl, rfl, fun _ _ _ h => by cases h⟩, rfl⟩ (by decide) ?_ hrun⟩
  refine ⟨fun _ h => h.elim, fun _ _ => ⟨fun offer h _ => ?_, fun _ _ => trivial⟩⟩
  have hurl := (offer_asked rfl h).1
  have hasked : asked "o/r".toList = some "https://github.com/o/r.git".toList := by decide
  rw [show offer.url = "https://github.com/o/r.git".toList from Option.some.inj (hurl.symm.trans hasked)]
  decide

/-- A project, and the first of two remotes with one short name. -/
def firstEvents (outcome : Call → Outcome) : List WorldEvent :=
  [.command (.new ['p']) fun _ => {},
    .command (.add { user := ['u'], project := ['p'], repoInput := "https://h/x/r".toList }) outcome]

def secondArgs : AddArgs := { user := ['u'], project := ['p'], repoInput := "https://h/y/r".toList }

/-- The second remote is answered with the repository of the first. If the first could not be written to the state file,
the second takes the place of its clone. -/
theorem run_answers_other :
    ∃ t u, run (step [['w']]) {} (firstEvents fun _ => {}) = some t ∧
      run (step [['w']]) {} (firstEvents fun
        | .save state => { fails := !state.repos.entries.isEmpty }
        | _ => {}) = some u ∧
      asked "https://h/y/r".toList = some "https://h/y/r".toList ∧
      ¬ t.Answers [['w']] "https://h/y/r".toList "https://h/y/r".toList ∧
      ¬ u.Answers [['w']] "https://h/y/r".toList "https://h/y/r".toList := by
  obtain ⟨t, ht, hselected⟩ : ∃ t, run (step [['w']]) {} (firstEvents fun _ => {}) = some t ∧
      (decide ((resolveRepo t.world.stored "https://h/y/r".toList).needsClone = false) &&
        decide ((t.world.stored.repos.lookup (resolveRepo t.world.stored "https://h/y/r".toList).name).map RepoEntry.url =
          some "https://h/x/r".toList)) = true :=
    exists_run_of_any (by decide)
  obtain ⟨u, hu, hcloned⟩ : ∃ u, run (step [['w']]) {} (firstEvents fun
        | .save state => { fails := !state.repos.entries.isEmpty }
        | _ => {}) = some u ∧
      (decide (u.clones.lookup (barePath [['w']] ['r']) = some "https://h/x/r".toList) &&
        decide (((step [['w']] u (.command (.add secondArgs) fun _ => {})).map fun v =>
          v.clones.lookup (barePath [['w']] ['r'])) = some (some "https://h/y/r".toList))) = true :=
    exists_run_of_any (by decide)
  have hother : ¬ SameRemote "https://h/x/r".toList "https://h/y/r".toList := by decide
  refine ⟨t, u, ht, hu, by decide, fun h => ?_, fun h => ?_⟩
  · rw [Bool.and_eq_true, decide_eq_true_iff, decide_eq_true_iff] at hselected
    obtain ⟨entry, hentry, hsame⟩ := h.selects hselected.1
    rw [hentry, Option.map_some, Option.some.injEq] at hselected
    rw [hselected.2] at hsame
    exact hother hsame
  · rw [Bool.and_eq_true, decide_eq_true_iff, decide_eq_true_iff] at hcloned
    obtain ⟨v, hv, hlookup⟩ := Option.map_eq_some_iff.mp hcloned.2
    have hkept : Kept "https://h/y/r".toList u v := h.keeps secondArgs (fun _ => {}) v rfl rfl hv
    have hsame := hlookup.symm.trans (hkept.clones _ _ hcloned.1 hother)
    exact absurd hsame (by decide)

end Disk

end Builderbot.Pm
