import WebDiff.Framework.Walk
import WebDiff.Model.Answers

/-!
# The page of a diff

What `index.html` draws of the answer to `/api/diff/`. For every group `createsubtree` is called with
the object `files` of the group and the id `'id0'`: it goes through all the files, draws those whose
`parent` is this id, and calls itself for each of them.
-/

namespace WebDiff

/-- A row of the page, as far as it says where in the tree it is drawn and for which file. The classes
`previds` are those by which the plus of a row above it hides and shows it. -/
structure PageRow where
  previds : List Bytes
  fid : Bytes
  fileinfo : Json

/-- `'file_' + fid` -/
def fileElid (fid : Bytes) : Bytes :=
  lit "file_" ++ fid

/-- The rows the loop of `createsubtree` draws itself. -/
def pageRows (files : Json) (previds : List Bytes) (startid : Bytes) : List PageRow :=
  (files.members.filter fun f => (f.2.member (lit "parent")).text = startid).map fun f =>
    ⟨previds, f.1, f.2⟩

/-- `createsubtree`, with fuel for the depth of the recursion. -/
def createsubtree (files : Json) : (fuel : ℕ) → (previds : List Bytes) → (startid : Bytes) →
    Option (List PageRow)
  | 0, _, _ => none
  | fuel + 1, previds, startid =>
    Walk.visitAll
      (fun row => createsubtree files fuel (row.previds ++ [fileElid row.fid]) row.fid)
      (pageRows files previds startid)

/-- What `loadDiff` draws of the group with the key `groupid`. -/
def drawGroup (result : Json) (groupid : Bytes) (fuel : ℕ) : Option (List PageRow) :=
  createsubtree (((result.member (lit "groups")).member groupid).member (lit "files")) fuel
    [lit "group" ++ groupid] (lit "id0")

end WebDiff
