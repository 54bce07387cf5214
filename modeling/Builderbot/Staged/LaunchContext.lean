import Builderbot.Git.Types
import Builderbot.Lib.JsonString

/-!
# The launch context of a queued prompt

`embed_launch_context` of `apps/staged/src-tauri/src/session_commands.rs` writes the launch context of a queued session
before its prompt, as JSON between two tags, and `extract_launch_context` reads both back when the queue is drained. JSON
does not escape the characters of the tags, and a prompt is not escaped at all.

`extract_embed_iff` says for which prompts and contexts the two are read back.
-/

namespace Builderbot.Staged.LaunchContext

open Builderbot.Lib Builderbot.Lib.Text Builderbot.Git

structure BranchSessionLaunchContext where
  source : Text
  scope : Text
  commitSha : Text
  reviewId : Option Text
deriving DecidableEq

def openTag : Text := "<launch-context>".toList

def closeTag : Text := "</launch-context>".toList

def malformed : Text := "Queued session prompt had malformed launch context".toList

/-- A member of a JSON object. -/
def member (key value : Text) : Text := JsonString.quote key ++ ':' :: value

def optionalString : Option Text → Text
  | none => "null".toList
  | some s => JsonString.quote s

/-- `serde_json::to_string`: compact, with the fields in the order of their declaration. -/
def toJson (c : BranchSessionLaunchContext) : Text :=
  '{' :: (member "source".toList (JsonString.quote c.source) ++
    ',' :: (member "scope".toList (JsonString.quote c.scope) ++
    ',' :: (member "commitSha".toList (JsonString.quote c.commitSha) ++
    ',' :: (member "reviewId".toList (optionalString c.reviewId) ++ ['}']))))

def embedLaunchContext (prompt : Text) : Option BranchSessionLaunchContext → Text
  | none => prompt
  | some context => openTag ++ toJson context ++ closeTag ++ '\n' :: '\n' :: trimStart prompt

/-- `fromJson` stands for `serde_json::from_str`. -/
def extractLaunchContext (fromJson : Text → Except Text BranchSessionLaunchContext) (prompt : Text) :
    Except Text (Text × Option BranchSessionLaunchContext) :=
  match List.dropPrefix? prompt openTag with
  | none => .ok (prompt, none)
  | some rest =>
    match splitOnce closeTag rest with
    | none => .error malformed
    | some (json, remainder) => do
        let context ← fromJson json
        return (trimStart remainder, some context)

/-! ## The tags in what is written -/

/-- The texts of a context. -/
def BranchSessionLaunchContext.texts (c : BranchSessionLaunchContext) : List Text :=
  [c.source, c.scope, c.commitSha] ++ c.reviewId.toList

/-- The closing tag without its first character, which does not come again. -/
def closeRest : Text := "/launch-context>".toList

theorem closeTag_eq : closeTag = '<' :: closeRest := by decide

theorem notMem_closeRest : '<' ∉ closeRest := by decide

theorem isBare_closeTag : ∀ d ∈ '<' :: closeRest, JsonString.isBare d = true :=
  List.all_eq_true.mp (by decide)

theorem closeTag_infix_cons {d : Char} {s : Text} (hd : d ≠ '<') : closeTag <:+: d :: s ↔ closeTag <:+: s := by
  rw [closeTag_eq]
  constructor
  · intro h
    have hnot : '<' ∉ [d] := by simpa using hd.symm
    exact infix_of_infix_append hnot h
  · exact fun h => h.trans (List.suffix_cons d s).isInfix

theorem closeTag_infix_escape (s : Text) : closeTag <:+: JsonString.escape s ↔ closeTag <:+: s := by
  rw [closeTag_eq]
  exact JsonString.infix_escape_iff isBare_closeTag (by decide)

/-- The tag occurs in a string or after it. -/
theorem closeTag_infix_quote (s rest : Text) : closeTag <:+: JsonString.quote s ++ rest ↔
    closeTag <:+: s ∨ closeTag <:+: rest := by
  have hquote : '"' ∉ closeTag := by decide
  rw [JsonString.quote, List.cons_append, closeTag_infix_cons (by decide), List.append_assoc, List.singleton_append,
    infix_append_cons_iff hquote, closeTag_infix_escape]

theorem closeTag_infix_member {key : Text} (hkey : ¬ closeTag <:+: key) (value rest : Text) :
    closeTag <:+: member key value ++ rest ↔ closeTag <:+: value ++ rest := by
  rw [member, List.append_assoc, closeTag_infix_quote, List.cons_append, closeTag_infix_cons (by decide)]
  exact or_iff_right hkey

theorem not_closeTag_infix {s : Text} (h : '<' ∉ s) : ¬ closeTag <:+: s := by
  rw [closeTag_eq]
  exact fun hinf => h (hinf.subset List.mem_cons_self)

theorem closeTag_infix_optionalString (r : Option Text) :
    closeTag <:+: optionalString r ++ ['}'] ↔ ∃ t ∈ r.toList, closeTag <:+: t := by
  have hbrace : ¬ closeTag <:+: ['}'] := not_closeTag_infix (by decide)
  have hnull : ¬ closeTag <:+: "null".toList ++ ['}'] := not_closeTag_infix (by decide)
  cases r with
  | none => exact iff_of_false hnull (by simp)
  | some r =>
    rw [optionalString, closeTag_infix_quote]
    simp [hbrace]

/-- The closing tag occurs in the JSON when it occurs in one of the strings. -/
theorem closeTag_infix_toJson (c : BranchSessionLaunchContext) :
    closeTag <:+: toJson c ↔ ∃ t ∈ c.texts, closeTag <:+: t := by
  have hsource : ¬ closeTag <:+: "source".toList := not_closeTag_infix (by decide)
  have hscope : ¬ closeTag <:+: "scope".toList := not_closeTag_infix (by decide)
  have hsha : ¬ closeTag <:+: "commitSha".toList := not_closeTag_infix (by decide)
  have hid : ¬ closeTag <:+: "reviewId".toList := not_closeTag_infix (by decide)
  have hcomma : ∀ s, closeTag <:+: ',' :: s ↔ closeTag <:+: s := fun s => closeTag_infix_cons (by decide)
  rw [toJson, closeTag_infix_cons (by decide), closeTag_infix_member hsource, closeTag_infix_quote, hcomma,
    closeTag_infix_member hscope, closeTag_infix_quote, hcomma, closeTag_infix_member hsha, closeTag_infix_quote, hcomma,
    closeTag_infix_member hid, closeTag_infix_optionalString]
  simp [BranchSessionLaunchContext.texts]

/-! ## Reading back -/

/-- The prompt that a queued session keeps. -/
def storedPrompt (prompt : Text) : Option BranchSessionLaunchContext → Text
  | none => prompt
  | some _ => trimStart prompt

section RoundTrip

variable {fromJson : Text → Except Text BranchSessionLaunchContext}

/-- After the opening tag a context is read, or none is found. -/
theorem extract_openTag (rest : Text) : extractLaunchContext fromJson (openTag ++ rest) =
    (match splitOnce closeTag rest with
    | none => .error malformed
    | some (json, remainder) => do
        let context ← fromJson json
        return (trimStart remainder, some context)) := by
  rw [extractLaunchContext, List.dropPrefix?_append_of_beq _ (beq_self_eq_true openTag)]

/-- A prompt that begins with the opening tag is never read as a prompt without a context. -/
theorem extract_openTag_ne (rest prompt : Text) :
    extractLaunchContext fromJson (openTag ++ rest) ≠ .ok (prompt, none) := by
  rw [extract_openTag]
  cases splitOnce closeTag rest with
  | none => simp
  | some split =>
    cases hjson : fromJson split.1 with
    | error e => simp [hjson, bind, Except.bind]
    | ok context => simp [hjson, bind, Except.bind, pure, Except.pure]

theorem extract_of_not_prefix {prompt : Text} (h : ¬ openTag <+: prompt) :
    extractLaunchContext fromJson prompt = .ok (prompt, none) := by
  have hdrop : List.dropPrefix? prompt openTag = none := by
    rw [Option.eq_none_iff_forall_ne_some]
    intro rest hrest
    obtain ⟨p, rfl, heq⟩ := List.dropPrefix?_eq_some_iff.mp hrest
    exact h (eq_of_beq heq ▸ List.prefix_append p rest)
  rw [extractLaunchContext, hdrop]

theorem embed_some (prompt : Text) (c : BranchSessionLaunchContext) : embedLaunchContext prompt (some c) =
    openTag ++ (toJson c ++ closeTag ++ '\n' :: '\n' :: trimStart prompt) := by
  rw [embedLaunchContext, List.append_assoc, List.append_assoc, List.append_assoc]

/-- Without the closing tag in the JSON, the split is at the one that was written. -/
theorem splitOnce_toJson {c : BranchSessionLaunchContext} (hc : ∀ t ∈ c.texts, ¬ closeTag <:+: t) (rest : Text) :
    splitOnce closeTag (toJson c ++ closeTag ++ rest) = some (toJson c, rest) := by
  have hnot : ¬ closeTag <:+: toJson c := by
    rw [closeTag_infix_toJson]
    rintro ⟨t, ht, hinf⟩
    exact hc t ht hinf
  rw [closeTag_eq] at hnot ⊢
  exact splitOnce_append_of_not_infix notMem_closeRest hnot

/-- With the closing tag in the JSON, the split is earlier, and the written tag stays in the prompt. -/
theorem exists_splitOnce_toJson {c : BranchSessionLaunchContext} (hc : ∃ t ∈ c.texts, closeTag <:+: t) (rest : Text) :
    ∃ json early, splitOnce closeTag (toJson c ++ closeTag ++ rest) = some (json, early ++ closeTag ++ rest) := by
  obtain ⟨x, y, hxy⟩ := (closeTag_infix_toJson c).mpr hc
  obtain ⟨p, r, hsplit, happ, hle⟩ := exists_splitOnce closeTag x (y ++ (closeTag ++ rest))
  have hwhole : x ++ closeTag ++ (y ++ (closeTag ++ rest)) = toJson c ++ closeTag ++ rest := by
    rw [← hxy]
    simp only [List.append_assoc]
  have hsuffix : y ++ (closeTag ++ rest) <:+ r := by
    apply List.suffix_of_suffix_length_le (List.suffix_append (x ++ closeTag) _)
    · rw [← happ]
      exact List.suffix_append (p ++ closeTag) r
    · have hlen := congrArg List.length happ
      simp only [List.length_append] at hlen ⊢
      omega
  obtain ⟨u, hu⟩ := hsuffix
  refine ⟨p, u ++ y, ?_⟩
  rw [← hwhole, hsplit, ← hu]
  simp only [List.append_assoc]

/-- The prompt and the context are read back exactly when a prompt without a context does not begin with the opening tag
and no text of a context has the closing tag in it. -/
theorem extract_embed_iff (hjson : ∀ c, fromJson (toJson c) = .ok c) (prompt : Text)
    (context : Option BranchSessionLaunchContext) :
    extractLaunchContext fromJson (embedLaunchContext prompt context) = .ok (storedPrompt prompt context, context) ↔
      (context = none → ¬ openTag <+: prompt) ∧ ∀ c, context = some c → ∀ t ∈ c.texts, ¬ closeTag <:+: t := by
  cases context with
  | none =>
    constructor
    · intro h
      refine ⟨fun _ => ?_, fun c hc => absurd hc (by simp)⟩
      rintro ⟨rest, rfl⟩
      exact extract_openTag_ne rest _ h
    · exact fun h => extract_of_not_prefix (h.1 rfl)
  | some c =>
    rw [embed_some, extract_openTag]
    constructor
    · intro h
      refine ⟨fun hc => absurd hc (by simp), ?_⟩
      rintro c' hc' t ht hinf
      obtain rfl := Option.some.inj hc'
      obtain ⟨json, early, hsplit⟩ := exists_splitOnce_toJson ⟨t, ht, hinf⟩ ('\n' :: '\n' :: trimStart prompt)
      rw [hsplit] at h
      have hread : trimStart (early ++ closeTag ++ '\n' :: '\n' :: trimStart prompt) = trimStart prompt := by
        cases hdecode : fromJson json with
        | error e => simp [hdecode, bind, Except.bind] at h
        | ok c' =>
          simp only [hdecode, bind, Except.bind, pure, Except.pure, Except.ok.injEq, Prod.mk.injEq] at h
          exact h.1
      -- the remainder that is read is longer than the prompt
      have hlen := length_trimStart_append (c := '<') (by decide) early
        (closeRest ++ '\n' :: '\n' :: trimStart prompt)
      rw [closeTag_eq, List.append_assoc, List.cons_append] at hread
      rw [hread] at hlen
      simp only [List.length_cons, List.length_append] at hlen
      omega
    · intro h
      rw [splitOnce_toJson (h.2 c rfl)]
      have htrim : trimStart ('\n' :: '\n' :: trimStart prompt) = trimStart prompt := by
        have hblank : trimStart ('\n' :: '\n' :: trimStart prompt) = trimStart (trimStart prompt) := rfl
        rw [hblank, trimStart_trimStart]
      simp [hjson, htrim, storedPrompt, bind, Except.bind, pure, Except.pure]

end RoundTrip

/-! ## A reader for what is written -/

def readString : Text → Option (Text × Text)
  | '"' :: s => JsonString.readFrom .plain s
  | _ => none

theorem readString_quote (s rest : Text) : readString (JsonString.quote s ++ rest) = some (s, rest) := by
  rw [JsonString.quote, List.cons_append, List.append_assoc]
  exact JsonString.readFrom_escape s rest

def readOptional (s : Text) : Option (Option Text × Text) :=
  match List.dropPrefix? s "null".toList with
  | some rest => some (none, rest)
  | none => (readString s).map fun r => (some r.1, r.2)

/-- Read the key of a member. -/
def readKey (key s : Text) : Option Text := List.dropPrefix? s (JsonString.quote key ++ [':'])

theorem readKey_member (key value rest : Text) : readKey key (member key value ++ rest) = some (value ++ rest) := by
  have hassoc : member key value ++ rest = (JsonString.quote key ++ [':']) ++ (value ++ rest) := by
    simp [member]
  rw [hassoc]
  exact List.dropPrefix?_append_of_beq _ (beq_self_eq_true _)

theorem readOptional_optionalString (r : Option Text) (rest : Text) :
    readOptional (optionalString r ++ rest) = some (r, rest) := by
  cases r with
  | none =>
    rw [readOptional, optionalString, List.dropPrefix?_append_of_beq _ (beq_self_eq_true "null".toList)]
  | some r =>
    have hdrop : List.dropPrefix? (JsonString.quote r ++ rest) "null".toList = none := rfl
    rw [readOptional, optionalString, hdrop, readString_quote]
    rfl

/-- The members of `toJson`, in the order in which it writes them. -/
def readContext (s : Text) : Option BranchSessionLaunchContext := do
  let s ← List.dropPrefix? s ['{']
  let (source, s) ← readString (← readKey "source".toList s)
  let s ← List.dropPrefix? s [',']
  let (scope, s) ← readString (← readKey "scope".toList s)
  let s ← List.dropPrefix? s [',']
  let (commitSha, s) ← readString (← readKey "commitSha".toList s)
  let s ← List.dropPrefix? s [',']
  let (reviewId, s) ← readOptional (← readKey "reviewId".toList s)
  if s = ['}'] then some ⟨source, scope, commitSha, reviewId⟩ else none

def fromCompactJson (s : Text) : Except Text BranchSessionLaunchContext :=
  match readContext s with
  | some c => .ok c
  | none => .error "expected value".toList

theorem fromCompactJson_toJson (c : BranchSessionLaunchContext) : fromCompactJson (toJson c) = .ok c := by
  have hdrop : ∀ (d : Char) (s : Text), List.dropPrefix? (d :: s) [d] = some s := fun d s =>
    List.dropPrefix?_append_of_beq s (beq_self_eq_true [d])
  have hread : readContext (toJson c) = some c := by
    simp only [readContext, toJson, hdrop, readKey_member, readString_quote, readOptional_optionalString,
      Option.bind_eq_bind, Option.bind_some, if_true]
  rw [fromCompactJson, hread]

/-- A review that was opened at a commit. -/
def reviewContext : BranchSessionLaunchContext where
  source := "review".toList
  scope := "branch".toList
  commitSha := "abc".toList
  reviewId := some "r1".toList

theorem extract_embed_iff_reviewContext :
    extractLaunchContext fromCompactJson (embedLaunchContext "fix it".toList (some reviewContext)) =
      .ok (storedPrompt "fix it".toList (some reviewContext), some reviewContext) := by
  refine (extract_embed_iff fromCompactJson_toJson "fix it".toList (some reviewContext)).mpr
    ⟨fun h => absurd h (Option.some_ne_none _), fun c hc => ?_⟩
  obtain rfl := Option.some.inj hc
  decide

/-- A prompt that begins with the opening tag makes the drain of the queue fail. -/
theorem extract_embed_ne : ¬ ∀ prompt context,
    extractLaunchContext fromCompactJson (embedLaunchContext prompt context) =
      .ok (storedPrompt prompt context, context) := by
  intro h
  exact extract_openTag_ne [] _ (h openTag none)

end Builderbot.Staged.LaunchContext
