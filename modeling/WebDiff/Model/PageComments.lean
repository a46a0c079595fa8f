import WebDiff.Model.DiffPage
import WebDiff.Storage.History

/-!
# The comments on the page of a diff

`createsubtree` of `index.html` draws the comments of a definition into two `div`s of every row of it.
From then on the page changes them itself: the click handlers of `rebindClick` send the requests, and
when an answer arrives the comment is put in front of the others, or removed, in all the `div`s at
once. Requests and answers are under way as long as they like, and overtake each other
(`CommentsPage.step`).

The ids in the attributes are decimal texts, which the handlers read back with `parseInt`; here they
are the numbers. What a browser makes of a text with markup in it is left out.
-/

namespace WebDiff

open Program

/-- A `div` of class `comment`: its `comment_id` and its text. -/
structure CommentDiv where
  commentId : ℤ
  comment : Bytes
deriving DecidableEq, Repr

/-- A `div` of class `comments`. -/
structure CommentsDiv where
  defineFileId : ℤ
  comments : List CommentDiv
deriving DecidableEq, Repr

/-- A number of an answer. -/
def Json.number : Json → ℤ
  | numberInteger n => n
  | numberUnsigned n => n
  | _ => 0

/-- The elements of a list of an answer. -/
def Json.items : Json → List Json
  | array items => items
  | _ => []

/-- The `div` made of an element of `document.diff_result['comments'][dfid]`. -/
def commentDiv (cm : Json) : CommentDiv :=
  ⟨(cm.member (lit "id")).number, (cm.member (lit "comment")).text⟩

/-- `content_comments` in `createsubtree`. -/
def contentComments (result fileinfo : Json) : CommentsDiv :=
  let defineFileId := (fileinfo.member (lit "define_file_id")).number
  let dfid := lit "dfid" ++ decimal defineFileId
  ⟨defineFileId, (((result.member (lit "comments")).member dfid).items).map commentDiv⟩

/-- What `loadDiff` draws of all groups. -/
def drawGroups (result : Json) (fuel : ℕ) : List (Bytes × Json) → Option (List PageRow)
  | [] => some []
  | (groupid, _) :: rest => do
    let rows ← drawGroup result groupid fuel
    let others ← drawGroups result fuel rest
    return rows ++ others

/-- The `div`s of class `comments`: one on the left and one on the right of every row. -/
def drawComments (result : Json) (rows : List PageRow) : List CommentsDiv :=
  rows.flatMap fun row =>
    [contentComments result row.fileinfo, contentComments result row.fileinfo]

/-- A request of a click handler. -/
inductive PageRequest
  | commentAdd (defineFileId : ℤ) (comment : Bytes)
  | commentHide (commentId : ℤ)
deriving DecidableEq, Repr

/-- An answer, with what its `done` handler has kept of the request. -/
inductive PageAnswer
  | commentAdd (defineFileId : ℤ) (result : ModelComment)
  | commentHide (commentId : ℤ)
deriving DecidableEq, Repr

/-- The `done` handlers, on one `div` of class `comments`. -/
def CommentsDiv.done (div : CommentsDiv) : PageAnswer → CommentsDiv
  | .commentAdd defineFileId result =>
    if div.defineFileId = defineFileId then
      { div with comments := ⟨result.id, result.comment⟩ :: div.comments }
    else div
  | .commentHide commentId =>
    { div with comments := div.comments.filter fun c => c.commentId ≠ commentId }

/-- The page, the requests and the answers that are under way, and the server. -/
structure CommentsPage where
  divs : List CommentsDiv
  requests : List PageRequest
  answers : List PageAnswer
  world : World

/-- What can happen next. -/
inductive PageEvent
  /-- a click on `comment-add`, and what is typed into the prompt -/
  | clickAdd (defineFileId : ℤ) (comment : Bytes)
  /-- a click on `comment-hide` -/
  | clickHide (commentId : ℤ)
  /-- the server handles the request number `n`, at the time `now` -/
  | serve (n : ℕ) (now : ℤ)
  /-- the answer number `n` arrives -/
  | done (n : ℕ)
  /-- the answer number `n` gets lost, and the page only logs it -/
  | fail (n : ℕ)
  /-- the server handles a request of somebody else -/
  | other (e : Event)

/-- What the server does with a request of the page. -/
def PageRequest.program (now : ℤ) : PageRequest → Storage PageAnswer
  | .commentAdd defineFileId comment => do
    let result ← addComment defineFileId comment now
    return .commentAdd defineFileId result
  | .commentHide commentId => do
    hideComment commentId
    return .commentHide commentId

/-- One step. A click needs something to click on, and `comment-add` a text. -/
def CommentsPage.step (my : MySql) (s : CommentsPage) : PageEvent → CommentsPage
  | .clickAdd defineFileId comment =>
    if comment ≠ [] ∧ ∃ div ∈ s.divs, div.defineFileId = defineFileId then
      { s with requests := s.requests ++ [.commentAdd defineFileId comment] }
    else s
  | .clickHide commentId =>
    if ∃ div ∈ s.divs, ∃ c ∈ div.comments, c.commentId = commentId then
      { s with requests := s.requests ++ [.commentHide commentId] }
    else s
  | .serve n now =>
    match s.requests[n]? with
    | none => s
    | some req =>
      let (answer, world) := run (World.step my) (req.program now) s.world
      { s with requests := s.requests.eraseIdx n, answers := s.answers ++ [answer], world := world }
  | .done n =>
    match s.answers[n]? with
    | none => s
    | some answer =>
      { s with divs := s.divs.map fun div => div.done answer, answers := s.answers.eraseIdx n }
  | .fail n => { s with answers := s.answers.eraseIdx n }
  | .other e => { s with world := (run (World.step my) e.program s.world).2 }

/-- A sequence of steps. -/
def CommentsPage.steps (my : MySql) (s : CommentsPage) (events : List PageEvent) : CommentsPage :=
  events.foldl (CommentsPage.step my) s

/-- The page of these rows, right after it was drawn. -/
def CommentsPage.loaded (result : Json) (rows : List PageRow) (world : World) : CommentsPage :=
  ⟨drawComments result rows, [], [], world⟩

end WebDiff
