import WebDiff.Framework.Outline
import WebDiff.Model.PageComments

/-!
# The page that browses the versions

`browser.html` shows the versions, and inside a version its groups and their files, as far as one
has clicked on the plus in front of them. Every item of the page has a `div` of class `subtree`,
which the plus finds by its id: if there is something in it, it is emptied, and otherwise the server
is asked, and what it answers is put into the `div` when it arrives (`BrowserPage.step`). Requests
and answers are under way as long as they like, and one may click on anything meanwhile, also twice.

The page is an outline whose keys stand for the `div`s themselves, so an answer that arrives for a
`div` that is no longer on the page changes nothing there. The class `opened` of a plus, which only
turns the icon, is left out, and so is what a browser makes of a text with markup in it.
-/

namespace WebDiff

open Program Outline

/-- An item of the page, with the attributes of its `subtree`. -/
inductive TreeItem
  | version (versionId : ℤ) (name : Bytes)
  | group (versionId groupId : ℤ) (title : Bytes) (amountOfFiles : ℤ)
  | file (versionId groupId fileId : ℤ) (title : Bytes) (amountOfChildren : ℤ)
deriving DecidableEq, Repr

/-- `'version_' + item['version_id']` -/
def versionElid (versionId : ℤ) : Bytes :=
  lit "version_" ++ decimal versionId

/-- `'group' + version_id + '_' + group_id` -/
def groupElid (versionId groupId : ℤ) : Bytes :=
  lit "group" ++ decimal versionId ++ lit "_" ++ decimal groupId

/-- `'group' + version_id + '_' + group_id + '_' + file_id` -/
def subfileElid (versionId groupId fileId : ℤ) : Bytes :=
  lit "group" ++ decimal versionId ++ lit "_" ++ decimal groupId ++ lit "_" ++ decimal fileId

/-- The id of the `subtree`, which is the `toggleid` of the plus. -/
def TreeItem.elid : TreeItem → Bytes
  | version versionId _ => versionElid versionId
  | group versionId groupId _ _ => groupElid versionId groupId
  | file versionId groupId fileId _ _ => subfileElid versionId groupId fileId

/-- A request of a click handler. -/
inductive BrowseRequest
  | groups (versionId : ℤ)
  | files (versionId groupId parentId : ℤ)
deriving DecidableEq, Repr

/-- What a click on the plus asks for. There is no plus in front of a file without children. -/
def TreeItem.request : TreeItem → Option BrowseRequest
  | version versionId _ => some (.groups versionId)
  | group versionId groupId _ _ => some (.files versionId groupId 0)
  | file versionId groupId fileId _ amountOfChildren =>
    if amountOfChildren > 0 then some (.files versionId groupId fileId) else none

/-- What the server answers, as far as the page looks at it: `result['result']['list']`. -/
def BrowseRequest.answer (my : MySql) (w : World) : BrowseRequest → Json
  | groups versionId => .array ((getGroups my w.db versionId).map ModelGroupForVersion.toJson)
  | files versionId groupId parentId =>
    .array ((getFiles my w.db versionId groupId parentId).map ModelFile.toJson)

/-- The items the `done` handlers make of the list. -/
def BrowseRequest.items (list : Json) : BrowseRequest → List TreeItem
  | groups versionId => list.items.map fun item =>
    .group versionId (item.member (lit "group_id")).number (item.member (lit "title")).text
      (item.member (lit "amount_of_files")).number
  | files versionId groupId _ => list.items.map fun item =>
    .file versionId groupId (item.member (lit "file_id")).number (item.member (lit "title")).text
      (item.member (lit "amount_of_children")).number

/-- The items made of the answer of `/api/versions-all/`. -/
def versionItems (list : Json) : List TreeItem :=
  list.items.map fun item =>
    .version (item.member (lit "version_id")).number (item.member (lit "name")).text

/-- The page, the requests and the answers that are under way, each with the `div` its `done`
handler fills, and the server. -/
structure BrowserPage where
  doc : List (Row TreeItem)
  next : ℕ
  requests : List (ℕ × BrowseRequest)
  answers : List (ℕ × BrowseRequest × Json)
  world : World

/-- What can happen next. -/
inductive BrowserEvent
  /-- a click on the plus of the item with the key -/
  | click (k : ℕ)
  /-- the server handles the request number `n` -/
  | serve (n : ℕ)
  /-- the answer number `n` arrives -/
  | done (n : ℕ)
  /-- the answer number `n` gets lost, and the page only logs it -/
  | fail (n : ℕ)
  /-- the server handles a request of somebody else -/
  | other (e : Event)

/-- The click handlers, for a plus with this `toggleid`. `$('#' + elid)` is the first element of the
page with the id. -/
def BrowserPage.toggle (s : BrowserPage) (elid : Bytes) : BrowserPage :=
  match s.doc.find? fun r => r.content.elid = elid with
  | none => s
  | some subel =>
    if IsOpen s.doc subel.key then
      { s with doc := close subel.key s.doc }
    else
      match subel.content.request with
      | none => s
      | some req => { s with requests := s.requests ++ [(subel.key, req)] }

/-- One step. -/
def BrowserPage.step (my : MySql) (s : BrowserPage) : BrowserEvent → BrowserPage
  | .click k =>
    match s.doc.find? fun r => r.key = k with
    | none => s
    | some r => if r.content.request.isSome then s.toggle r.content.elid else s
  | .serve n =>
    match s.requests[n]? with
    | none => s
    | some (k, req) =>
      { s with
        requests := s.requests.eraseIdx n
        answers := s.answers ++ [(k, req, req.answer my s.world)] }
  | .done n =>
    match s.answers[n]? with
    | none => s
    | some (k, req, list) =>
      { s with
        doc := fill k s.next (req.items list) s.doc
        next := s.next + (req.items list).length
        answers := s.answers.eraseIdx n }
  | .fail n => { s with answers := s.answers.eraseIdx n }
  | .other e => { s with world := (run (World.step my) e.program s.world).2 }

/-- A sequence of steps. -/
def BrowserPage.steps (my : MySql) (s : BrowserPage) (events : List BrowserEvent) : BrowserPage :=
  events.foldl (BrowserPage.step my) s

/-- The page when the versions have arrived. Before that, there is nothing to click on. -/
def BrowserPage.loaded (world : World) : BrowserPage :=
  let items := versionItems (.array (world.caches.getVersionsAll.map ModelVersion.toJson))
  ⟨rows [] 0 items, items.length, [], [], world⟩

end WebDiff
