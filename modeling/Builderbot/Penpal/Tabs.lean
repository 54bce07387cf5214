import Builderbot.Git.Types
import Builderbot.Lib.Run
import Builderbot.Lib.Utf8
import Mathlib.Data.List.Nodup

/-!
# Tabs

The hook `useTabs` of `penpal/frontend/src/hooks/useTabs.ts`: the tabs with their histories, the operations on
them, and the effect that runs when the route has changed.

`resolve url path` is the pathname with the search string where the router lands when it navigates to `path` from
`url`; react-router is not part of the repository. A route change that has happened and whose effect has not run is
on the way. What the operations read as the location is the route of the last effect.
-/

namespace Builderbot.Penpal

open Git (Text)

/-! ## Titles -/

def hexDigit (c : Char) : Option ℕ :=
  if '0' ≤ c ∧ c ≤ '9' then some (c.toNat - '0'.toNat)
  else if 'a' ≤ c ∧ c ≤ 'f' then some (c.toNat - 'a'.toNat + 10)
  else if 'A' ≤ c ∧ c ≤ 'F' then some (c.toNat - 'A'.toNat + 10)
  else none

/-- The bytes of a sequence of escapes have to be well-formed. -/
def strictUtf8 (bytes : List UInt8) : Option Text :=
  if (Lib.Utf8.decode bytes).2 then none else some (Lib.Utf8.decode bytes).1

/-- `bytes` are those of the escapes right before the text. -/
def decodeEscapes (bytes : List UInt8) : Text → Option Text
  | [] => strictUtf8 bytes
  | '%' :: a :: b :: rest => do
      let high ← hexDigit a
      let low ← hexDigit b
      decodeEscapes (bytes ++ [UInt8.ofNat (16 * high + low)]) rest
  | '%' :: _ => none
  | c :: rest => do
      let decoded ← strictUtf8 bytes
      let rest ← decodeEscapes [] rest
      return decoded ++ c :: rest

/-- `decodeURIComponent`, which throws a `URIError` where this is `none`. -/
def decodeURIComponent (s : Text) : Option Text := decodeEscapes [] s

/-- `s || fallback`. -/
def orElse (s fallback : Text) : Text := if s = [] then fallback else s

def lastPart (path : Text) : Text := ((path.splitOn '/').getLast?).getD []

def filePrefix : Text := "/file/".toList
def projectPrefix : Text := "/project/".toList
def workspacePrefix : Text := "/workspace/".toList

/-- `none` where the code throws. -/
def deriveTitleFromPath (path : Text) : Option Text :=
  if filePrefix <+: path then some (orElse (lastPart path) "File".toList)
  else if projectPrefix <+: path then
    some (orElse (lastPart (path.drop projectPrefix.length)) "Project".toList)
  else if workspacePrefix <+: path then
    (decodeURIComponent (path.drop workspacePrefix.length)).map fun name => orElse name "Workspace".toList
  else if path = "/recent".toList ∨ path = "/recent/".toList then some "Recent".toList
  else if path = "/in-review".toList ∨ path = "/in-review/".toList then some "In Review".toList
  else if path = "/".toList ∨ path = [] then some "Home".toList
  else some path

/-- `title || deriveTitleFromPath(path)`. -/
def titleOr (title : Option Text) (path : Text) : Option Text :=
  match title with
  | some (c :: cs) => some (c :: cs)
  | _ => deriveTitleFromPath path

/-! ## State -/

structure Tab where
  id : ℕ
  path : Text
  title : Text
  history : List Text
  historyIndex : ℕ
deriving DecidableEq, Repr

inductive NavigationType where
  | push
  | replace
  | pop
deriving DecidableEq, Repr

/-- A change of pathname or search. -/
structure RouteChange where
  path : Text
  navType : NavigationType
deriving DecidableEq, Repr

/-- What is saved in `localStorage`. -/
structure PersistedTabState where
  tabs : List Tab
  activeTabId : ℕ
deriving DecidableEq, Repr

structure TabsState extends PersistedTabState where
  /-- `navigating.current`. -/
  navigating : Bool := false
  /-- `locationRef.current`: the route that has been rendered. -/
  shown : Text
  /-- The route changes whose effect has not run. -/
  changes : List RouteChange := []
  /-- What the effect for the desktop app finds under the label of the window. -/
  persisted : Option PersistedTabState := none
  /-- An updater threw, and the tree was unmounted. -/
  crashed : Bool := false
deriving DecidableEq, Repr

namespace TabsState

/-- The route of the router. -/
def url (s : TabsState) : Text := (s.changes.map (·.path)).getLastD s.shown

def activeTab (s : TabsState) : Option Tab := s.tabs.find? fun tab => tab.id = s.activeTabId

/-- `setTabs(prev => prev.map(tab => tab.id === activeTabId ? f(tab) : tab))`, where `f` may throw. -/
def updateActive (s : TabsState) (f : Tab → Option Tab) : TabsState :=
  if s.tabs.any fun tab => decide (tab.id = s.activeTabId) && (f tab).isNone then { s with crashed := true }
  else { s with tabs := s.tabs.map fun tab => if tab.id = s.activeTabId then (f tab).getD tab else tab }

end TabsState

/-! ## The effect of a route change -/

/-- The loop over the offsets from the current index. -/
def searchOutward (history : List Text) (index : ℕ) (path : Text) : Option ℕ :=
  (List.range' 1 (history.length - 1)).findSome? fun offset =>
    if offset ≤ index ∧ history[index - offset]? = some path then some (index - offset)
    else if history[index + offset]? = some path then some (index + offset)
    else none

namespace Tab

/-- A tab with one entry. -/
def opened (id : ℕ) (path title : Text) : Tab := ⟨id, path, title, [path], 0⟩

/-- A route change that the user made. -/
def record (tab : Tab) (change : RouteChange) : Option Tab :=
  if tab.history[tab.historyIndex]? = some change.path then some tab
  else do
    let title ← deriveTitleFromPath change.path
    match change.navType with
    | .replace =>
      return { tab with path := change.path, title, history := tab.history.set tab.historyIndex change.path }
    | .pop =>
      let index := (searchOutward tab.history tab.historyIndex change.path).getD tab.historyIndex
      return { tab with path := change.path, title, historyIndex := index }
    | .push =>
      let history := tab.history.take (tab.historyIndex + 1) ++ [change.path]
      return { tab with path := change.path, title, history, historyIndex := history.length - 1 }

/-- A route change that the hook made. -/
def follow (tab : Tab) (change : RouteChange) : Option Tab :=
  (deriveTitleFromPath change.path).map fun title => { tab with path := change.path, title }

end Tab

namespace TabsState

/-- The effect on `[location.pathname, location.search]`. -/
def routeEffect (s : TabsState) (change : RouteChange) : TabsState :=
  if s.navigating then { s with navigating := false }.updateActive (·.follow change)
  else s.updateActive (·.record change)

/-! ## Operations -/

section

variable (resolve : Text → Text → Text) (s : TabsState)

/-- `navigate(path)`. -/
def navigate (path : Text) : TabsState :=
  if resolve s.url path = s.url then s
  else { s with changes := s.changes ++ [⟨resolve s.url path, .push⟩] }

/-- Navigate if the path is not the one shown. -/
def goTo (path : Text) : TabsState :=
  if path = s.shown then s else { s with navigating := true }.navigate resolve path

def openTab (id : ℕ) (path : Text) (title : Option Text) (background : Bool) : TabsState :=
  match titleOr title path with
  | none => s
  | some title =>
    let opened := { s with tabs := s.tabs ++ [.opened id path title] }
    if background then opened
    else { opened with activeTabId := id, navigating := s.navigating || decide (path ≠ s.shown) }.navigate resolve path

/-- The tab that is activated when the active one is closed. -/
def neighbor (id : ℕ) : Option Tab :=
  let next := s.tabs.filter fun tab => tab.id ≠ id
  next[min (s.tabs.findIdx fun tab => tab.id = id) (next.length - 1)]?

def closeTab (id : ℕ) : TabsState :=
  if s.tabs.length ≤ 1 then s
  else if s.tabs.all fun tab => tab.id ≠ id then s
  else
    let closed := { s with tabs := s.tabs.filter fun tab => tab.id ≠ id }
    if id = s.activeTabId then
      match s.neighbor id with
      | none => { s with crashed := true }
      | some newActive => { closed with activeTabId := newActive.id }.goTo resolve newActive.path
    else closed

def activateTab (id : ℕ) : TabsState :=
  match s.tabs.find? fun tab => tab.id = id with
  | none => s
  | some tab => { s with activeTabId := id }.goTo resolve tab.path

/-- The entry of the active tab's history where `goBack` goes. -/
def back : Option ℕ :=
  s.activeTab.bind fun tab => if tab.historyIndex = 0 then none else some (tab.historyIndex - 1)

/-- The same for `goForward`. -/
def forward : Option ℕ :=
  s.activeTab.bind fun tab =>
    if tab.history.length ≤ tab.historyIndex + 1 then none else some (tab.historyIndex + 1)

def historyEntry (index : ℕ) : Option Text := s.activeTab.bind fun tab => tab.history[index]?

/-- Both operations from there on. -/
def goToIndex (index : ℕ) : TabsState :=
  match s.historyEntry index with
  | none => { s with crashed := true }
  | some path =>
    (s.goTo resolve path).updateActive fun tab =>
      (deriveTitleFromPath path).map fun title => { tab with historyIndex := index, path, title }

def goBack : TabsState :=
  match s.back with
  | none => s
  | some index => s.goToIndex resolve index

def goForward : TabsState :=
  match s.forward with
  | none => s
  | some index => s.goToIndex resolve index

/-- There is a saved state, and only the default tab is open. -/
def restorable : Option PersistedTabState :=
  match s.tabs with
  | [tab] => if tab.history.length = 1 then s.persisted else none
  | _ => none

/-- The effect for the desktop app, when the label of the window is there. -/
def restore : TabsState :=
  match s.restorable with
  | none => { s with persisted := none }
  | some saved =>
    let restored := { s with toPersistedTabState := saved, persisted := none }
    match restored.activeTab with
    | none => restored
    | some tab => restored.goTo resolve tab.path

end

/-! ## Steps -/

end TabsState

inductive TabsEvent where
  /-- `id` is the new tab's. -/
  | openTab (id : ℕ) (path : Text) (title : Option Text) (background : Bool)
  | closeTab (id : ℕ)
  | activateTab (id : ℕ)
  | goBack
  | goForward
  | restore
  /-- A change of the route that none of the operations makes. -/
  | userChange (change : RouteChange)
  /-- The effect for the first route change on the way. -/
  | effect
deriving DecidableEq, Repr

namespace TabsState

variable (resolve : Text → Text → Text)

def handle (s : TabsState) : TabsEvent → Option TabsState
  | .openTab id path title background =>
    if id ∈ s.tabs.map (·.id) then none else some (s.openTab resolve id path title background)
  | .closeTab id => some (s.closeTab resolve id)
  | .activateTab id => some (s.activateTab resolve id)
  | .goBack => some (s.goBack resolve)
  | .goForward => some (s.goForward resolve)
  | .restore => some (s.restore resolve)
  | .userChange change =>
    some (if change.path = s.url then s else { s with changes := s.changes ++ [change] })
  | .effect =>
    match s.changes with
    | [] => none
    | change :: changes => some ({ s with changes, shown := change.path }.routeEffect change)

def step (s : TabsState) (event : TabsEvent) : Option TabsState :=
  if s.crashed then none else s.handle resolve event

/-! ## Consistent histories -/

end TabsState

/-- Every tab shows the entry at its index. -/
structure PersistedTabState.Consistent (s : PersistedTabState) : Prop where
  shows : ∀ tab ∈ s.tabs, tab.history[tab.historyIndex]? = some tab.path
  nodup : (s.tabs.map (·.id)).Nodup
  active : ∃ tab ∈ s.tabs, tab.id = s.activeTabId

variable {change : RouteChange} {id : ℕ}

namespace TabsState

variable {resolve : Text → Text → Text} {s t : TabsState}

/-- The active tab is at the path. -/
def At (s : TabsState) (path : Text) : Prop := ∀ tab ∈ s.tabs, tab.id = s.activeTabId → tab.path = path

/-- A change that is to be followed leads to the path of the active tab and comes first. -/
structure Inv (s : TabsState) : Prop where
  consistent : s.Consistent
  ahead : s.navigating = true → ∃ change ∈ s.changes.head?, s.At change.path
  persisted : ∀ saved ∈ s.persisted, saved.Consistent
  alive : s.crashed = false

/-- Nothing is in the way of going to the path: either it is shown, and no navigation of the hook is on the way, or
the router lands there, and no other route change comes first. -/
def Clear (resolve : Text → Text → Text) (s : TabsState) (path : Text) : Prop :=
  if path = s.shown then s.navigating = false
  else resolve s.url path = path ∧ ∀ change ∈ s.changes.head?, change.path = path

/-- Where an operation takes the active tab. -/
def destination (s : TabsState) : TabsEvent → Option Text
  | .openTab _ path title background => if background then none else (titleOr title path).map fun _ => path
  | .closeTab id => if id = s.activeTabId ∧ 1 < s.tabs.length then (s.neighbor id).map (·.path) else none
  | .activateTab id => (s.tabs.find? fun tab => tab.id = id).map (·.path)
  | .goBack => s.back.bind s.historyEntry
  | .goForward => s.forward.bind s.historyEntry
  | .restore => s.restorable.bind fun saved => (activeTab { s with toPersistedTabState := saved }).map (·.path)
  | .userChange _ | .effect => none

/-- The path that an updater makes a title of. -/
def retitled (s : TabsState) : TabsEvent → Option Text
  | .goBack => s.destination .goBack
  | .goForward => s.destination .goForward
  | .effect => s.changes.head?.bind fun change =>
    if s.navigating = false ∧ (s.activeTab.bind fun tab => tab.history[tab.historyIndex]?) = some change.path then none
    else some change.path
  | _ => none

/-- The user has gone to a page of the active tab's history. -/
def PopsInHistory (s : TabsState) : TabsEvent → Prop
  | .effect => s.navigating = false → ∀ change ∈ s.changes.head?, change.navType = .pop →
      ∀ tab ∈ s.activeTab, change.path ∈ tab.history
  | _ => True

/-- The condition on a step. -/
def Undisturbed (resolve : Text → Text → Text) (s : TabsState) (event : TabsEvent) : Prop :=
  (∀ path ∈ s.destination event, s.Clear resolve path) ∧
    (∀ path ∈ s.retitled event, (deriveTitleFromPath path).isSome) ∧ s.PopsInHistory event

/-! ## One tab -/

section

variable {history : List Text} {index i : ℕ} {path : Text}

/-- The search finds a place with the path. -/
theorem getElem?_of_searchOutward (h : searchOutward history index path = some i) : history[i]? = some path := by
  obtain ⟨offset, -, hoffset⟩ := List.exists_of_findSome?_eq_some h
  split at hoffset
  next hback => exact Option.some.inj hoffset ▸ hback.2
  next =>
    split at hoffset
    next hforward => exact Option.some.inj hoffset ▸ hforward
    next => cases hoffset

/-- The loop gets to every other entry. -/
theorem exists_searchOutward (hindex : index < history.length) (hne : history[index]? ≠ some path)
    (hpath : path ∈ history) : ∃ i, searchOutward history index path = some i := by
  obtain ⟨j, hj⟩ := List.mem_iff_getElem?.mp hpath
  have hlt : j < history.length := (List.getElem?_eq_some_iff.mp hj).1
  have hji : j ≠ index := fun h => hne (h ▸ hj)
  rw [← Option.isSome_iff_exists, searchOutward, List.findSome?_isSome_iff]
  rcases Nat.lt_or_gt_of_ne hji with hback | hforward
  · refine ⟨index - j, List.mem_range'_1.mpr (by omega), ?_⟩
    have hentry : index - (index - j) = j := by omega
    have hfound : index - j ≤ index ∧ history[index - (index - j)]? = some path := by
      rw [hentry]
      exact ⟨by omega, hj⟩
    rw [if_pos hfound]
    rfl
  · refine ⟨j - index, List.mem_range'_1.mpr (by omega), ?_⟩
    have hentry : index + (j - index) = j := by omega
    rw [hentry, if_pos hj]
    split <;> rfl

end

/-- A tab after the effect, at the path that has been reached. -/
def Reaches (tab : Tab) (path : Text) (tab' : Tab) : Prop :=
  tab'.id = tab.id ∧ tab'.path = path ∧ tab'.history[tab'.historyIndex]? = some path

/-- A recorded change is the current entry of the history. -/
theorem reaches_record {tab : Tab} (hshows : tab.history[tab.historyIndex]? = some tab.path)
    (htitle : tab.history[tab.historyIndex]? = some change.path ∨ (deriveTitleFromPath change.path).isSome)
    (hpop : change.navType = .pop → change.path ∈ tab.history) :
    ∃ tab', tab.record change = some tab' ∧ Reaches tab change.path tab' := by
  have hlt : tab.historyIndex < tab.history.length := (List.getElem?_eq_some_iff.mp hshows).1
  by_cases hsame : tab.history[tab.historyIndex]? = some change.path
  · refine ⟨tab, by rw [Tab.record, if_pos hsame], rfl, ?_, hsame⟩
    exact Option.some.inj (hshows.symm.trans hsame)
  obtain ⟨title, htitle⟩ := Option.isSome_iff_exists.mp (htitle.resolve_left hsame)
  rw [Tab.record, if_neg hsame, htitle]
  cases hnav : change.navType with
  | replace =>
    refine ⟨_, rfl, rfl, rfl, ?_⟩
    exact List.getElem?_set_self hlt
  | pop =>
    obtain ⟨index, hindex⟩ := exists_searchOutward hlt hsame (hpop hnav)
    refine ⟨_, rfl, rfl, rfl, ?_⟩
    show tab.history[(searchOutward tab.history tab.historyIndex change.path).getD tab.historyIndex]? = some change.path
    rw [hindex]
    exact getElem?_of_searchOutward hindex
  | push =>
    refine ⟨_, rfl, rfl, rfl, ?_⟩
    -- the new entry is the last one
    simp

/-- A change that the tab has made already only needs its title. -/
theorem reaches_follow {tab : Tab} (hshows : tab.history[tab.historyIndex]? = some tab.path)
    (htitle : (deriveTitleFromPath change.path).isSome) (hpath : tab.path = change.path) :
    ∃ tab', tab.follow change = some tab' ∧ Reaches tab change.path tab' := by
  obtain ⟨title, htitle⟩ := Option.isSome_iff_exists.mp htitle
  refine ⟨{ tab with path := change.path, title }, by rw [Tab.follow, htitle, Option.map_some], rfl, rfl, ?_⟩
  exact hpath ▸ hshows

/-! ## All tabs -/

theorem updateActive_eq {f : Tab → Option Tab}
    (h : ∀ tab ∈ s.tabs, tab.id = s.activeTabId → ∃ tab', f tab = some tab') :
    s.updateActive f
      = { s with tabs := s.tabs.map fun tab => if tab.id = s.activeTabId then (f tab).getD tab else tab } := by
  rw [updateActive, if_neg]
  rw [List.any_eq_true]
  rintro ⟨tab, htab, hnone⟩
  rw [Bool.and_eq_true, decide_eq_true_eq] at hnone
  obtain ⟨tab', htab'⟩ := h tab htab hnone.1
  rw [htab'] at hnone
  cases hnone.2

/-- All other tabs stay as they are. -/
theorem consistent_updateActive {path : Text} {f : Tab → Option Tab} (h : s.Consistent)
    (hf : ∀ tab ∈ s.tabs, tab.id = s.activeTabId → ∃ tab', f tab = some tab' ∧ Reaches tab path tab') :
    ∃ tabs, s.updateActive f = { s with tabs } ∧
      PersistedTabState.Consistent ⟨tabs, s.activeTabId⟩ ∧ { s with tabs }.At path := by
  refine ⟨_, updateActive_eq fun tab htab hid => ?_, ⟨?_, ?_, ?_⟩, ?_⟩
  · obtain ⟨tab', htab', -⟩ := hf tab htab hid
    exact ⟨tab', htab'⟩
  · intro tab' htab'
    obtain ⟨tab, htab, rfl⟩ := List.mem_map.mp htab'
    by_cases hid : tab.id = s.activeTabId
    · obtain ⟨tab', htab', -, hpath, hshows⟩ := hf tab htab hid
      rw [if_pos hid, htab', Option.getD_some, hshows, hpath]
    · rw [if_neg hid]
      exact h.shows tab htab
  -- ids are kept, so the active one is still there, once
  · have hids : (s.tabs.map fun tab => if tab.id = s.activeTabId then (f tab).getD tab else tab).map (·.id)
        = s.tabs.map (·.id) := by
      rw [List.map_map]
      refine List.map_congr_left fun tab htab => ?_
      show (if tab.id = s.activeTabId then (f tab).getD tab else tab).id = tab.id
      split
      next hid =>
        obtain ⟨tab', htab', hsame, -⟩ := hf tab htab hid
        rw [htab', Option.getD_some, hsame]
      next => rfl
    exact hids ▸ h.nodup
  · obtain ⟨tab, htab, hid⟩ := h.active
    obtain ⟨tab', htab', hsame, -⟩ := hf tab htab hid
    refine ⟨tab', List.mem_map.mpr ⟨tab, htab, ?_⟩, hsame.trans hid⟩
    rw [if_pos hid, htab', Option.getD_some]
  · intro tab' htab' hid'
    obtain ⟨tab, htab, rfl⟩ := List.mem_map.mp htab'
    by_cases hid : tab.id = s.activeTabId
    · obtain ⟨tab', htab', -, hpath, -⟩ := hf tab htab hid
      rw [if_pos hid, htab', Option.getD_some, hpath]
    · rw [if_neg hid] at hid'
      exact absurd hid' hid

theorem activeTab_of_mem (h : s.Consistent) {tab : Tab} (htab : tab ∈ s.tabs) (hid : tab.id = s.activeTabId) :
    s.activeTab = some tab := by
  rw [TabsState.activeTab]
  obtain ⟨tab', hfind⟩ := Option.isSome_iff_exists.mp
    (List.find?_isSome.mpr ⟨tab, htab, decide_eq_true hid⟩ : (s.tabs.find? fun tab => tab.id = s.activeTabId).isSome)
  have hid' : tab'.id = s.activeTabId :=
    of_decide_eq_true (List.find?_some (p := fun tab : Tab => decide (tab.id = s.activeTabId)) hfind)
  have hsame : tab' = tab :=
    List.inj_on_of_nodup_map h.nodup (List.mem_of_find?_eq_some hfind) htab (hid'.trans hid.symm)
  rw [hfind, hsame]

/-! ## Navigation -/

/-- Navigating adds changes of the route, and no more. -/
theorem navigate_eq (path : Text) : ∃ changes, s.navigate resolve path = { s with changes := s.changes ++ changes } := by
  rw [navigate]
  split
  next => exact ⟨[], by rw [List.append_nil]⟩
  next => exact ⟨_, rfl⟩

/-- The change to the path is on the way and comes first. -/
theorem head?_navigate {path : Text} (hne : path ≠ s.shown) (hlands : resolve s.url path = path)
    (hway : ∀ change ∈ s.changes.head?, change.path = path) :
    ∃ change ∈ (s.navigate resolve path).changes.head?, change.path = path := by
  cases hchanges : s.changes with
  | nil =>
    have hurl : s.url = s.shown := by
      rw [url, hchanges]
      rfl
    rw [navigate, hlands, hurl, if_neg hne, hchanges]
    exact ⟨_, rfl, rfl⟩
  | cons change changes =>
    obtain ⟨more, hmore⟩ := navigate_eq (s := s) path
    rw [hmore]
    refine ⟨change, ?_, hway change (by rw [hchanges]; rfl)⟩
    show (s.changes ++ more).head? = some change
    rw [hchanges]
    rfl

/-- The state in which an operation has put the active tab at a path that nothing is in the way of. -/
structure Arriving (resolve : Text → Text → Text) (s : TabsState) (path : Text) : Prop where
  consistent : s.Consistent
  at_path : s.At path
  clear : s.Clear resolve path
  persisted : ∀ saved ∈ s.persisted, saved.Consistent
  alive : s.crashed = false

/-- Going where the active tab points to keeps the invariant. -/
theorem Arriving.inv_goTo {path : Text} (h : Arriving resolve s path) : (s.goTo resolve path).Inv := by
  rw [goTo]
  split
  next hshown =>
    refine ⟨h.consistent, fun hnavigating => ?_, h.persisted, h.alive⟩
    have hclear := h.clear
    rw [Clear, if_pos hshown, hnavigating] at hclear
    cases hclear
  next hshown =>
    obtain ⟨hlands, hway⟩ := (if_neg hshown).mp h.clear
    obtain ⟨change, hchange, hpath⟩ := head?_navigate (s := { s with navigating := true }) hshown hlands hway
    obtain ⟨changes, hnavigate⟩ := navigate_eq (s := { s with navigating := true }) path
    rw [hnavigate] at hchange ⊢
    exact ⟨h.consistent, fun _ => ⟨change, hchange, hpath ▸ h.at_path⟩, h.persisted, h.alive⟩

/-! ## Operations -/

/-- Tabs of one id are one tab. -/
theorem at_path (h : s.Consistent) {tab : Tab} (htab : tab ∈ s.tabs) (hid : tab.id = s.activeTabId) :
    s.At tab.path := fun tab' htab' hid' => by
  rw [List.inj_on_of_nodup_map h.nodup htab' htab (hid'.trans hid.symm)]

/-- A new tab shows its path. -/
theorem consistent_open (h : s.Consistent) {id : ℕ} (hid : id ∉ s.tabs.map (·.id)) (path title : Text)
    {activeTabId : ℕ} (hactive : activeTabId = id ∨ activeTabId = s.activeTabId) :
    PersistedTabState.Consistent ⟨s.tabs ++ [.opened id path title], activeTabId⟩ := by
  refine ⟨fun tab htab => ?_, ?_, ?_⟩
  · rcases List.mem_append.mp htab with htab | htab
    · exact h.shows tab htab
    · rw [List.mem_singleton.mp htab]
      rfl
  · show ((s.tabs ++ [Tab.opened id path title]).map (·.id)).Nodup
    rw [List.map_append, List.nodup_append']
    refine ⟨h.nodup, List.nodup_singleton _, fun a ha ha' => hid ?_⟩
    have hsame : a = id := List.mem_singleton.mp ha'
    exact hsame ▸ ha
  · rcases hactive with rfl | rfl
    · exact ⟨_, List.mem_append_right _ (List.mem_singleton_self _), rfl⟩
    · obtain ⟨tab, htab, hactive⟩ := h.active
      exact ⟨tab, List.mem_append_left _ htab, hactive⟩

theorem Inv.openTab (h : s.Inv) {id : ℕ} {path : Text} {title : Option Text} {background : Bool}
    (hid : id ∉ s.tabs.map (·.id))
    (hclear : ∀ p ∈ s.destination (.openTab id path title background), s.Clear resolve p) :
    (s.openTab resolve id path title background).Inv := by
  rw [TabsState.openTab]
  cases htitle : titleOr title path with
  | none => exact h
  | some name =>
    dsimp only
    cases background with
    | true =>
      rw [if_pos rfl]
      refine ⟨consistent_open h.consistent hid path name (.inr rfl), fun hnavigating => ?_, h.persisted, h.alive⟩
      obtain ⟨change, hchange, hat⟩ := h.ahead hnavigating
      refine ⟨change, hchange, fun tab htab hactive => ?_⟩
      rcases List.mem_append.mp htab with htab | htab
      · exact hat tab htab hactive
      · -- the new tab is not the active one
        obtain ⟨tab', htab', hactive'⟩ := h.consistent.active
        rw [List.mem_singleton.mp htab] at hactive
        exact absurd (List.mem_map.mpr ⟨tab', htab', hactive'.trans hactive.symm⟩) hid
    | false =>
      rw [if_neg Bool.false_ne_true]
      have hconsistent := consistent_open h.consistent hid path name (.inl rfl)
      have hdestination : s.Clear resolve path := hclear path (by
        rw [destination, if_neg Bool.false_ne_true, htitle]
        rfl)
      by_cases hshown : path = s.shown
      · -- the path is shown already, and the flag stays down
        obtain ⟨changes, hnavigate⟩ := navigate_eq (s := { s with
          tabs := s.tabs ++ [Tab.opened id path name], activeTabId := id,
          navigating := s.navigating || decide (path ≠ s.shown) }) path
        rw [hnavigate]
        refine ⟨hconsistent, fun hnavigating => ?_, h.persisted, h.alive⟩
        rw [Clear, if_pos hshown] at hdestination
        simp [hdestination, hshown] at hnavigating
      · have hgoTo : ({ s with tabs := s.tabs ++ [Tab.opened id path name], activeTabId := id }.goTo resolve path)
            = { s with
                tabs := s.tabs ++ [Tab.opened id path name], activeTabId := id,
                navigating := s.navigating || decide (path ≠ s.shown) }.navigate resolve path := by
          rw [goTo, if_neg hshown, decide_eq_true hshown, Bool.or_true]
        rw [← hgoTo]
        refine Arriving.inv_goTo ⟨hconsistent, ?_, hdestination, h.persisted, h.alive⟩
        exact @at_path _ hconsistent (.opened id path name)
          (List.mem_append_right _ (List.mem_singleton_self _)) rfl

theorem consistent_close (h : s.Consistent) {activeTabId : ℕ}
    (hactive : ∃ tab ∈ s.tabs.filter (fun tab => tab.id ≠ id), tab.id = activeTabId) :
    PersistedTabState.Consistent ⟨s.tabs.filter fun tab => tab.id ≠ id, activeTabId⟩ :=
  ⟨fun tab htab => h.shows tab (List.mem_of_mem_filter htab), h.nodup.sublist (List.filter_sublist.map _), hactive⟩

/-- There is another tab when one of several is closed. -/
theorem exists_neighbor (h : s.Consistent) (hmany : 1 < s.tabs.length) : ∃ tab, s.neighbor id = some tab := by
  have hnext : s.tabs.filter (fun tab => tab.id ≠ id) ≠ [] := by
    intro hnil
    have hall : ∀ tab ∈ s.tabs, tab.id = id := by
      intro tab htab
      simpa using List.filter_eq_nil_iff.mp hnil tab htab
    have hnodup := h.nodup
    rcases htabs : s.tabs with - | ⟨a, - | ⟨b, rest⟩⟩
    · rw [htabs] at hmany
      exact absurd hmany (by simp)
    · rw [htabs] at hmany
      exact absurd hmany (by simp)
    · rw [htabs] at hnodup hall
      have hsame : a.id = b.id := (hall a (by simp)).trans (hall b (by simp)).symm
      simp [hsame] at hnodup
  have hlt := List.length_pos_iff.mpr hnext
  exact ⟨_, List.getElem?_eq_getElem (by omega)⟩

/-- The neighbour of a closed tab becomes active. -/
theorem Inv.closeTab (h : s.Inv) (hclear : ∀ p ∈ s.destination (.closeTab id), s.Clear resolve p) :
    (s.closeTab resolve id).Inv := by
  rw [TabsState.closeTab]
  split
  next => exact h
  next hmany =>
    split
    next => exact h
    next =>
      dsimp only
      split
      next hid =>
        obtain ⟨tab, hneighbor⟩ := exists_neighbor h.consistent (Nat.lt_of_not_le hmany)
        have htab : tab ∈ s.tabs.filter fun tab => tab.id ≠ id := List.mem_of_getElem? hneighbor
        have hconsistent := consistent_close h.consistent ⟨tab, htab, rfl⟩
        rw [hneighbor]
        refine Arriving.inv_goTo ⟨hconsistent, ?_, hclear tab.path ?_, h.persisted, h.alive⟩
        · exact at_path hconsistent htab rfl
        · rw [destination, if_pos ⟨hid, Nat.lt_of_not_le hmany⟩, hneighbor]
          rfl
      next hid =>
        obtain ⟨tab, htab, hactive⟩ := h.consistent.active
        have hstays : tab ∈ s.tabs.filter fun tab => tab.id ≠ id :=
          List.mem_filter.mpr ⟨htab, decide_eq_true fun hsame => hid (hsame.symm.trans hactive)⟩
        refine ⟨consistent_close h.consistent ⟨tab, hstays, hactive⟩, fun hnavigating => ?_, h.persisted, h.alive⟩
        obtain ⟨change, hchange, hat⟩ := h.ahead hnavigating
        exact ⟨change, hchange, fun tab' htab' => hat tab' (List.mem_of_mem_filter htab')⟩

theorem Inv.activateTab (h : s.Inv) (hclear : ∀ p ∈ s.destination (.activateTab id), s.Clear resolve p) :
    (s.activateTab resolve id).Inv := by
  rw [TabsState.activateTab]
  cases hfind : s.tabs.find? fun tab => tab.id = id with
  | none => exact h
  | some tab =>
    have htab := List.mem_of_find?_eq_some hfind
    have hid : tab.id = id := of_decide_eq_true (List.find?_some (p := fun tab : Tab => decide (tab.id = id)) hfind)
    have hconsistent : PersistedTabState.Consistent ⟨s.tabs, id⟩ :=
      ⟨h.consistent.shows, h.consistent.nodup, tab, htab, hid⟩
    refine Arriving.inv_goTo ⟨hconsistent, ?_, hclear tab.path ?_, h.persisted, h.alive⟩
    · exact at_path (s := { s with activeTabId := id }) hconsistent htab hid
    · rw [destination, hfind]
      rfl

/-- Whether the hook navigates does not depend on the tabs. -/
theorem goTo_eq (path : Text) : ∃ navigating changes, s.goTo resolve path = { s with navigating, changes } ∧
    ∀ tabs, { s with tabs }.goTo resolve path = { s with tabs, navigating, changes } := by
  by_cases hshown : path = s.shown
  · refine ⟨s.navigating, s.changes, by rw [goTo, if_pos hshown], fun tabs => ?_⟩
    rw [goTo, if_pos hshown]
  · by_cases hlands : resolve s.url path = s.url
    · refine ⟨true, s.changes, ?_, fun tabs => ?_⟩
      · rw [goTo, if_neg hshown, navigate]
        exact if_pos hlands
      · rw [goTo, if_neg hshown, navigate]
        exact if_pos hlands
    · refine ⟨true, s.changes ++ [⟨resolve s.url path, .push⟩], ?_, fun tabs => ?_⟩
      · rw [goTo, if_neg hshown, navigate]
        exact if_neg hlands
      · rw [goTo, if_neg hshown, navigate]
        exact if_neg hlands

/-- A step in the history goes to its entry. -/
theorem Inv.goToIndex (h : s.Inv) {index : ℕ} {path : Text} (hentry : s.historyEntry index = some path)
    (hclear : s.Clear resolve path) (htitle : (deriveTitleFromPath path).isSome) :
    (s.goToIndex resolve index).Inv := by
  obtain ⟨title, htitle⟩ := Option.isSome_iff_exists.mp htitle
  obtain ⟨navigating, changes, hgoTo, htabs⟩ := goTo_eq (s := s) path
  rw [TabsState.goToIndex, hentry]
  obtain ⟨tabs, htabs', hconsistent', hat⟩ := consistent_updateActive (s := { s with navigating, changes }) h.consistent
    (f := fun tab => (deriveTitleFromPath path).map fun title => { tab with historyIndex := index, path, title })
    fun tab htab hid => by
      rw [htitle]
      refine ⟨_, rfl, rfl, rfl, ?_⟩
      show tab.history[index]? = some path
      rw [historyEntry, activeTab_of_mem h.consistent htab hid] at hentry
      exact hentry
  dsimp only
  rw [hgoTo, htabs', ← htabs tabs]
  exact Arriving.inv_goTo ⟨hconsistent', hat, hclear, h.persisted, h.alive⟩

/-- The entry before or after that of a tab is in its history. -/
theorem exists_historyEntry (h : s.Consistent) {index : ℕ} (hindex : s.back = some index ∨ s.forward = some index) :
    ∃ path, s.historyEntry index = some path := by
  obtain ⟨tab, htab, hid⟩ := h.active
  have hactive := activeTab_of_mem h htab hid
  have hlt : tab.historyIndex < tab.history.length := (List.getElem?_eq_some_iff.mp (h.shows tab htab)).1
  rw [back, forward, hactive] at hindex
  rw [historyEntry, hactive]
  have hindex' : index < tab.history.length := by
    rcases hindex with hindex | hindex
    · obtain ⟨-, hindex⟩ := Option.ite_none_left_eq_some.mp hindex
      have := Option.some.inj hindex
      omega
    · obtain ⟨hmore, hindex⟩ := Option.ite_none_left_eq_some.mp hindex
      have := Option.some.inj hindex
      omega
  exact ⟨_, List.getElem?_eq_getElem hindex'⟩

theorem Inv.goBack (h : s.Inv) (hguard : Undisturbed resolve s .goBack) : (s.goBack resolve).Inv := by
  obtain ⟨hclear, htitle, -⟩ := hguard
  rw [TabsState.goBack]
  cases hback : s.back with
  | none => exact h
  | some index =>
    obtain ⟨path, hentry⟩ := exists_historyEntry h.consistent (.inl hback)
    have hdestination : s.destination .goBack = some path := by
      rw [destination, hback, Option.bind_some, hentry]
    exact h.goToIndex hentry (hclear path hdestination) (htitle path hdestination)

theorem Inv.goForward (h : s.Inv) (hguard : Undisturbed resolve s .goForward) : (s.goForward resolve).Inv := by
  obtain ⟨hclear, htitle, -⟩ := hguard
  rw [TabsState.goForward]
  cases hforward : s.forward with
  | none => exact h
  | some index =>
    obtain ⟨path, hentry⟩ := exists_historyEntry h.consistent (.inr hforward)
    have hdestination : s.destination .goForward = some path := by
      rw [destination, hforward, Option.bind_some, hentry]
    exact h.goToIndex hentry (hclear path hdestination) (htitle path hdestination)

theorem persisted_of_restorable {saved : PersistedTabState} (h : s.restorable = some saved) : s.persisted = some saved := by
  rw [restorable] at h
  split at h
  next =>
    split at h
    · exact h
    · cases h
  next => cases h

/-- The saved tabs are consistent when they come back. -/
theorem Inv.restore (h : s.Inv) (hclear : ∀ p ∈ s.destination .restore, s.Clear resolve p) : (s.restore resolve).Inv := by
  have hnone : ∀ saved ∈ (none : Option PersistedTabState), saved.Consistent := fun saved hsaved => by cases hsaved
  rw [TabsState.restore]
  cases hrestorable : s.restorable with
  | none => exact ⟨h.consistent, h.ahead, hnone, h.alive⟩
  | some saved =>
    have hsaved := h.persisted saved (persisted_of_restorable hrestorable)
    obtain ⟨tab, htab, hid⟩ := hsaved.active
    have hactive := activeTab_of_mem (s := { s with toPersistedTabState := saved, persisted := none }) hsaved htab hid
    dsimp only
    rw [hactive]
    refine Arriving.inv_goTo ⟨hsaved, ?_, hclear tab.path ?_, hnone, h.alive⟩
    · exact at_path (s := { s with toPersistedTabState := saved }) hsaved htab hid
    · rw [destination, hrestorable, Option.bind_some,
        activeTab_of_mem (s := { s with toPersistedTabState := saved }) hsaved htab hid]
      rfl

/-! ## Route changes -/

/-- The user may change the route at any time. -/
theorem Inv.userChange (h : s.Inv) (change : RouteChange) :
    (if change.path = s.url then s else { s with changes := s.changes ++ [change] }).Inv := by
  split
  · exact h
  · refine ⟨h.consistent, fun hnavigating => ?_, h.persisted, h.alive⟩
    obtain ⟨first, hfirst, hat⟩ := h.ahead hnavigating
    refine ⟨first, ?_, hat⟩
    obtain ⟨rest, hrest⟩ := List.head?_eq_some_iff.mp hfirst
    show (s.changes ++ [change]).head? = some first
    rw [hrest]
    rfl

/-- The effect takes the active tab to the path of the change. -/
theorem Inv.effect (h : s.Inv) {changes : List RouteChange} (hchanges : s.changes = change :: changes)
    (hguard : Undisturbed resolve s .effect) :
    ({ s with changes, shown := change.path }.routeEffect change).Inv ∧
      ({ s with changes, shown := change.path }.routeEffect change).At change.path := by
  obtain ⟨-, htitle, hpop⟩ := hguard
  rw [retitled, hchanges, List.head?_cons, Option.bind_some] at htitle
  rw [PopsInHistory, hchanges, List.head?_cons] at hpop
  rw [routeEffect]
  dsimp only
  cases hnavigating : s.navigating with
  -- the tab went ahead of the route: it follows the change
  | true =>
    rw [if_pos rfl]
    obtain ⟨first, hfirst, hat⟩ := h.ahead hnavigating
    rw [hchanges, List.head?_cons, Option.mem_some_iff] at hfirst
    subst hfirst
    have htitle' := htitle change.path (by simp [hnavigating])
    obtain ⟨tabs, htabs, hconsistent, hat'⟩ := consistent_updateActive
      (s := { s with changes, shown := change.path, navigating := false }) (f := (·.follow change)) h.consistent
      fun tab htab hid => reaches_follow (h.consistent.shows tab htab) htitle' (hat tab htab hid)
    rw [htabs]
    exact ⟨⟨hconsistent, fun hfalse => (by cases hfalse), h.persisted, h.alive⟩, hat'⟩
  -- the route went first: the tab records it, unless it stands there already
  | false =>
    rw [if_neg Bool.false_ne_true]
    obtain ⟨tabs, htabs, hconsistent, hat'⟩ := consistent_updateActive
      (s := { s with changes, shown := change.path, navigating := false }) (f := (·.record change)) h.consistent
      fun tab htab hid => by
        have hactive := activeTab_of_mem h.consistent htab hid
        refine reaches_record (h.consistent.shows tab htab) ?_ fun hnav => hpop hnavigating change rfl hnav tab hactive
        by_cases hsame : tab.history[tab.historyIndex]? = some change.path
        · exact .inl hsame
        · refine .inr (htitle change.path ?_)
          rw [hactive, if_neg]
          · rfl
          · exact fun hboth => hsame hboth.2
    rw [htabs]
    exact ⟨⟨hconsistent, fun hfalse => (by cases hfalse), h.persisted, h.alive⟩, hat'⟩

/-! ## Runs -/

/-- One case for each event. -/
theorem Inv.step (h : s.Inv) {event : TabsEvent} (hguard : Undisturbed resolve s event)
    (hstep : s.step resolve event = some t) : t.Inv := by
  rw [TabsState.step, h.alive, if_neg Bool.false_ne_true] at hstep
  cases event with
  | openTab id path title background =>
    rw [handle] at hstep
    split at hstep
    · cases hstep
    next hid =>
      cases hstep
      exact h.openTab hid hguard.1
  | closeTab id =>
    cases hstep
    exact h.closeTab hguard.1
  | activateTab id =>
    cases hstep
    exact h.activateTab hguard.1
  | goBack =>
    cases hstep
    exact h.goBack hguard
  | goForward =>
    cases hstep
    exact h.goForward hguard
  | restore =>
    cases hstep
    exact h.restore hguard.1
  | userChange change =>
    cases hstep
    exact h.userChange change
  | effect =>
    rw [handle] at hstep
    split at hstep
    · cases hstep
    next change changes hchanges =>
      cases hstep
      exact (h.effect hchanges hguard).1

/-- Where a run begins: with one tab, with the state that an earlier run has saved, or, in the desktop app, with one
tab while the saved state is yet to come. -/
inductive Start (resolve : Text → Text → Text) : TabsState → Prop
  | fresh (id : ℕ) (url title : Text) :
      Start resolve { tabs := [.opened id url title], activeTabId := id, shown := url }
  | saved {s t : TabsState} {events : List TabsEvent} (url : Text) (hs : Start resolve s)
      (hrun : run (step resolve) s events = some t) (hguard : Along (step resolve) (Undisturbed resolve) s events) :
      Start resolve { toPersistedTabState := t.toPersistedTabState, shown := url }
  | awaiting {s t : TabsState} {events : List TabsEvent} (id : ℕ) (url title : Text) (hs : Start resolve s)
      (hrun : run (step resolve) s events = some t) (hguard : Along (step resolve) (Undisturbed resolve) s events) :
      Start resolve
        { tabs := [.opened id url title], activeTabId := id, shown := url, persisted := some t.toPersistedTabState }

theorem inv_run {events : List TabsEvent} (h : s.Inv) (hrun : run (step resolve) s events = some t)
    (hguard : Along (step resolve) (Undisturbed resolve) s events) : t.Inv :=
  run_invariant_along (fun _ _ _ h hguard hstep => Inv.step h hguard hstep) h hguard hrun

theorem consistent_opened (id : ℕ) (url title : Text) :
    PersistedTabState.Consistent ⟨[.opened id url title], id⟩ := by
  refine ⟨fun tab htab => ?_, List.nodup_singleton _, _, List.mem_singleton_self _, rfl⟩
  rw [List.mem_singleton.mp htab]
  rfl

/-- A start shows one tab, at the path of the route. -/
theorem Start.inv (h : Start resolve s) : s.Inv := by
  induction h with
  | fresh id url title =>
    exact ⟨consistent_opened id url title, fun h => (by cases h), fun saved hsaved => (by cases hsaved), rfl⟩
  | saved url _ hrun hguard ih =>
    exact ⟨(inv_run ih hrun hguard).consistent, fun h => (by cases h), fun saved hsaved => (by cases hsaved), rfl⟩
  | awaiting id url title _ hrun hguard ih =>
    refine ⟨consistent_opened id url title, fun h => (by cases h), fun saved hsaved => ?_, rfl⟩
    cases hsaved
    exact (inv_run ih hrun hguard).consistent

/-- The entry at the active tab's index is the path. -/
def Records (s : TabsState) (path : Text) : Prop :=
  ∃ tab ∈ s.tabs, tab.id = s.activeTabId ∧ tab.history[tab.historyIndex]? = some path

/-- In a run without disturbances every tab shows the entry at its index at all times, and the effect records every
route change in the history of the active tab. -/
theorem run_tabs_consistent {events : List TabsEvent} (hstart : Start resolve s)
    (hrun : run (step resolve) s events = some t) (hguard : Along (step resolve) (Undisturbed resolve) s events) :
    t.crashed = false ∧ t.tabs ≠ [] ∧ (∃ tab ∈ t.tabs, tab.id = t.activeTabId) ∧
      (∀ tab ∈ t.tabs, tab.historyIndex < tab.history.length ∧ tab.history[tab.historyIndex]? = some tab.path) ∧
      ∀ change ∈ t.changes.head?, Undisturbed resolve t .effect →
        ∃ u, t.step resolve .effect = some u ∧ u.Records change.path := by
  have hinv := inv_run hstart.inv hrun hguard
  obtain ⟨tab, htab, hid⟩ := hinv.consistent.active
  refine ⟨hinv.alive, List.ne_nil_of_mem htab, ⟨tab, htab, hid⟩, fun tab htab => ?_, fun change hchange heffect => ?_⟩
  · have hshows := hinv.consistent.shows tab htab
    exact ⟨(List.getElem?_eq_some_iff.mp hshows).1, hshows⟩
  · obtain ⟨changes, hchanges⟩ := List.head?_eq_some_iff.mp hchange
    obtain ⟨hinv', hat⟩ := hinv.effect hchanges heffect
    refine ⟨{ t with changes, shown := change.path }.routeEffect change, ?_, ?_⟩
    · rw [step, hinv.alive, if_neg Bool.false_ne_true, handle, hchanges, hinv.alive]
    · obtain ⟨tab, htab, hid⟩ := hinv'.consistent.active
      exact ⟨tab, htab, hid, hat tab htab hid ▸ hinv'.consistent.shows tab htab⟩

instance (s : TabsState) : (event : TabsEvent) → Decidable (s.PopsInHistory event)
  | .effect => inferInstanceAs (Decidable (s.navigating = false → ∀ change ∈ s.changes.head?, change.navType = .pop →
      ∀ tab ∈ s.activeTab, change.path ∈ tab.history))
  | .openTab .. | .closeTab _ | .activateTab _ | .goBack | .goForward | .restore | .userChange _ => .isTrue trivial

instance (s : TabsState) (path : Text) : Decidable (s.Clear resolve path) :=
  inferInstanceAs (Decidable (if path = s.shown then s.navigating = false
    else resolve s.url path = path ∧ ∀ change ∈ s.changes.head?, change.path = path))

instance (s : TabsState) (event : TabsEvent) : Decidable (s.Undisturbed resolve event) :=
  inferInstanceAs (Decidable ((∀ path ∈ s.destination event, s.Clear resolve path) ∧
    (∀ path ∈ s.retitled event, (deriveTitleFromPath path).isSome) ∧ s.PopsInHistory event))

instance (s : TabsState) (path : Text) : Decidable (s.Records path) :=
  inferInstanceAs (Decidable (∃ tab ∈ s.tabs, tab.id = s.activeTabId ∧ tab.history[tab.historyIndex]? = some path))

/-- A router that goes to an absolute path, whose fragment is not part of pathname and search. -/
def withoutFragment (_ path : Text) : Text := path.takeWhile (· ≠ '#')

/-- One tab at `/a`. -/
def atA : TabsState := { tabs := [.opened 0 ['/', 'a'] ['/', 'a']], activeTabId := 0, shown := ['/', 'a'] }

/-- A link with a fragment to the page that is shown, and then a page that the user goes to. -/
theorem run_fragment_swallows :
    ∃ s, run (step withoutFragment) atA
        [.openTab 1 ['/', 'a', '#', 'h'] none false, .userChange ⟨['/', 'b'], .push⟩, .effect] = some s ∧
      (s.navigating = false ∧ s.changes = []) ∧ ¬ s.Records ['/', 'b'] ∧
      ¬ ∀ tab ∈ s.tabs, tab.history[tab.historyIndex]? = some tab.path := by
  obtain ⟨s, hrun, hs⟩ := exists_run_of_any
    (show (run (step withoutFragment) atA
        [.openTab 1 ['/', 'a', '#', 'h'] none false, .userChange ⟨['/', 'b'], .push⟩, .effect]).any
      (fun s => decide ((s.navigating = false ∧ s.changes = []) ∧
        ¬ s.Records ['/', 'b'] ∧ ¬ ∀ tab ∈ s.tabs, tab.history[tab.historyIndex]? = some tab.path)) = true by decide)
  exact ⟨s, hrun, of_decide_eq_true hs⟩

/-- A page that the user goes to, the way back, a new tab and the return to the first one. -/
theorem run_tabs_consistent_back :
    ∃ s, run (step withoutFragment) atA [.userChange ⟨['/', 'b'], .push⟩, .effect, .goBack, .effect,
        .openTab 1 ['/', 'c'] none false, .effect, .activateTab 0, .effect, .userChange ⟨['/', 'd'], .push⟩] = some s ∧
      (∀ tab ∈ s.tabs, tab.historyIndex < tab.history.length ∧ tab.history[tab.historyIndex]? = some tab.path) ∧
      ∃ u, s.step withoutFragment .effect = some u ∧ u.Records ['/', 'd'] := by
  obtain ⟨s, hrun, hs⟩ := exists_run_of_any
    (show (run (step withoutFragment) atA [.userChange ⟨['/', 'b'], .push⟩, .effect, .goBack, .effect,
        .openTab 1 ['/', 'c'] none false, .effect, .activateTab 0, .effect, .userChange ⟨['/', 'd'], .push⟩]).any
      (fun s => decide (s.changes.head? = some ⟨['/', 'd'], .push⟩ ∧ Undisturbed withoutFragment s .effect)) = true
      by decide)
  obtain ⟨hhead, heffect⟩ := of_decide_eq_true hs
  have hstart : Start withoutFragment atA := .fresh 0 ['/', 'a'] ['/', 'a']
  obtain ⟨-, -, -, htabs, hrecords⟩ := run_tabs_consistent hstart hrun (by decide)
  exact ⟨s, hrun, htabs, hrecords _ hhead heffect⟩

end TabsState

end Builderbot.Penpal
