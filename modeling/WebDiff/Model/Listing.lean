import Mathlib.Data.List.Dedup
import WebDiff.Framework.Walk
import WebDiff.Model.Storage

/-!
# Listings

The queries behind the page that browses a version, `getGroups` and `getFiles`, and the page itself:
it lists the files below the group with parent `0`, and expands an entry when its
`amount_of_children` is positive (`browse`).
-/

namespace WebDiff

/-- `ModelFile`, as far as it is set or shown. -/
structure ModelFile where
  id : ℤ
  groupId : ℤ
  versionId : ℤ
  defineFileId : ℤ
  amountOfChildren : ℤ
  title : Bytes
deriving DecidableEq, Repr

/-- `ModelFile()`. -/
def ModelFile.new : ModelFile := ⟨-1, -1, -1, -1, 0, lit "None"⟩

/-- `ModelGroupForVersion`. -/
structure ModelGroupForVersion where
  id : ℤ
  versionId : ℤ
  title : Bytes
  amountOfFiles : ℤ
deriving DecidableEq, Repr

/-! ### `MySqlStorageConnection` -/

/-- `ORDER BY t0.amount_of_children <> 0 DESC, title`. -/
def filesLe (my : MySql) (a b : FileRow × DefineFileRow) : Bool :=
  if (a.1.amountOfChildren ≠ 0) = (b.1.amountOfChildren ≠ 0) then
    my.collate a.2.filename b.2.filename
  else a.1.amountOfChildren ≠ 0

/-- The file made of a row. `getFiles` does not set the define id. -/
def listedFile (t : FileRow × DefineFileRow) : ModelFile :=
  { ModelFile.new with
    versionId := t.1.versionId
    groupId := t.1.fileGroupId
    id := t.1.id
    amountOfChildren := t.1.amountOfChildren
    title := cString t.2.filename }

/-- `getFiles`. -/
def getFiles (my : MySql) (db : Database) (versionId groupId parentId : ℤ) : List ModelFile :=
  (my.orderBy (filesLe my) (db.filesJoin.filter fun t =>
    t.1.versionId = versionId ∧ t.1.fileGroupId = groupId ∧ t.1.parentId = parentId)).map listedFile

/-- `webdiff_files INNER JOIN webdiff_file_groups t1 ON t1.id = file_group_id
WHERE version_id = versionId`. -/
def Database.filesOfVersion (db : Database) (versionId : ℤ) : List (FileRow × FileGroupRow) :=
  (db.files.flatMap fun t0 =>
    (db.fileGroups.filter fun t1 => t1.id = t0.fileGroupId).map fun t1 => (t0, t1)).filter
      fun t => t.1.versionId = versionId

/-- `getGroups`: one row for each group that occurs in the join, with the number of its rows. -/
def getGroups (my : MySql) (db : Database) (versionId : ℤ) : List ModelGroupForVersion :=
  (my.scan ((db.filesOfVersion versionId).map fun t => t.1.fileGroupId).dedup).filterMap
    fun groupId =>
      ((db.filesOfVersion versionId).find? fun t => t.1.fileGroupId = groupId).map fun t =>
        { id := groupId
          versionId := t.1.versionId
          title := cString t.2.name
          amountOfFiles :=
            ((db.filesOfVersion versionId).countP fun t => t.1.fileGroupId = groupId : ℕ) }

/-! ### `browser.html` -/

/-- An entry of the page: the titles from the root down to it, and the file. -/
structure Entry where
  titles : List Bytes
  file : ModelFile
deriving DecidableEq, Repr

/-- The entries the page shows below a list of titles. -/
def showFiles (titles : List Bytes) (files : List ModelFile) : List Entry :=
  files.map fun f => ⟨titles ++ [f.title], f⟩

/-- What the page shows when the plus of an entry is clicked. There is one if
`amount_of_children > 0`. -/
def expandEntry (my : MySql) (db : Database) (versionId groupId : ℤ) (e : Entry) : List Entry :=
  if e.file.amountOfChildren > 0 then
    showFiles e.titles (getFiles my db versionId groupId e.file.id)
  else []

/-- Everything the page shows of a group when every plus is clicked, with fuel for the depth. -/
def browse (my : MySql) (db : Database) (versionId groupId : ℤ) (fuel : ℕ) : Option (List Entry) :=
  Walk.walk (expandEntry my db versionId groupId) fuel
    (showFiles [] (getFiles my db versionId groupId 0))

end WebDiff
