import Mathlib.Order.ConditionallyCompleteLattice.Basic
import WebDiff.Model.Storage

/-!
# The version diff

`MySqlStorage::getDiff` and what it calls. The result is collected in a `ModelDiffGroups`, which
keeps the entries of every group in the order in which they were found, and besides them the define
ids of all entries. `std::map` is `Std.TreeMap`, so a loop over the groups goes by increasing id.

The loop that searches the parents of the entries of one group drains a stack that
`findAndAddFile` pushes to. It is written as its body (`parentsStep`) repeated a number of times
that is enough to drain the stack of any tables (`searchGroupParents_stack`).
-/

namespace WebDiff

/-! ### `models_diff.cpp` -/

/-- The state of an entry, which may be any text. -/
structure DiffState where
  text : Bytes
deriving DecidableEq, Repr

/-- The state of the files that only the left version has. -/
def DiffState.missing : DiffState := ⟨lit "missing"⟩

/-- The state of the files that only the right version has. -/
def DiffState.new : DiffState := ⟨lit "new"⟩

/-- The state of the parents, `""`. -/
def DiffState.none : DiffState := ⟨[]⟩

@[simp] theorem DiffState.missing_ne_new : DiffState.missing ≠ .new := by decide

@[simp] theorem DiffState.missing_ne_none : DiffState.missing ≠ .none := by decide

@[simp] theorem DiffState.new_ne_none : DiffState.new ≠ .none := by decide

/-- `ModelDiffFile`. -/
structure ModelDiffFile where
  id : ℤ
  parentFileId : ℤ
  defineFileId : ℤ
  amountOfChildren : ℤ
  filename : Bytes
  filepath : Bytes
  state : DiffState
deriving DecidableEq, Repr

/-- `ModelDiffGroup`. The vectors of ids and the two numbers repeat what the entries say. -/
structure ModelDiffGroup where
  group : ModelGroup
  newFiles : ℕ
  missingFiles : ℕ
  fileDiffs : List ModelDiffFile
  filesIds : List ℤ
  parentFilesIds : List ℤ
  filesIds_eq : filesIds = fileDiffs.map ModelDiffFile.id
  parentFilesIds_eq : parentFilesIds = fileDiffs.map ModelDiffFile.parentFileId
  newFiles_eq : newFiles = fileDiffs.countP fun f => f.state = .new
  missingFiles_eq : missingFiles = fileDiffs.countP fun f => f.state = .missing

namespace ModelDiffGroup

/-- `ModelDiffGroup(group)`. -/
def new (group : ModelGroup) : ModelDiffGroup :=
  ⟨group, 0, 0, [], [], [], rfl, rfl, rfl, rfl⟩

def addDiffFile (g : ModelDiffGroup) (fileDiff : ModelDiffFile) : ModelDiffGroup where
  group := g.group
  newFiles := if fileDiff.state = .new then g.newFiles + 1 else g.newFiles
  missingFiles := if fileDiff.state = .missing then g.missingFiles + 1 else g.missingFiles
  fileDiffs := g.fileDiffs ++ [fileDiff]
  filesIds := g.filesIds ++ [fileDiff.id]
  parentFilesIds := g.parentFilesIds ++ [fileDiff.parentFileId]
  filesIds_eq := by rw [g.filesIds_eq, List.map_append, List.map_singleton]
  parentFilesIds_eq := by rw [g.parentFilesIds_eq, List.map_append, List.map_singleton]
  newFiles_eq := by
    rw [g.newFiles_eq, List.countP_append, List.countP_singleton]
    split <;> simp_all
  missingFiles_eq := by
    rw [g.missingFiles_eq, List.countP_append, List.countP_singleton]; split <;> simp_all

def size (g : ModelDiffGroup) : ℕ :=
  g.fileDiffs.length

def hasFileId (g : ModelDiffGroup) (fileId : ℤ) : Bool :=
  g.filesIds.contains fileId

end ModelDiffGroup

/-- `ModelDiffGroups`. -/
structure ModelDiffGroups where
  mapGroups : Std.TreeMap ℤ ModelDiffGroup
  fileDefineIds : List ℤ
  mapComments : Std.TreeMap ℤ (List ModelComment)

namespace ModelDiffGroups

def new : ModelDiffGroups := ⟨∅, [], ∅⟩

def addDiffFile (d : ModelDiffGroups) (group : ModelGroup) (fileDiff : ModelDiffFile) :
    ModelDiffGroups :=
  { d with
    mapGroups := d.mapGroups.insert group.id
      ((d.mapGroups.getD group.id (ModelDiffGroup.new group)).addDiffFile fileDiff)
    fileDefineIds :=
      if d.fileDefineIds.contains fileDiff.defineFileId then d.fileDefineIds
      else d.fileDefineIds ++ [fileDiff.defineFileId] }

def getFilesLength (d : ModelDiffGroups) : ℕ :=
  d.mapGroups.toList.foldl (fun ret g => ret + g.2.size) 0

def setComments (d : ModelDiffGroups) (defineFileId : ℤ) (comments : List ModelComment) :
    ModelDiffGroups :=
  { d with mapComments := d.mapComments.insert defineFileId comments }

end ModelDiffGroups

/-! ### `MySqlStorageConnection` -/

/-- The join of `getDiffFiles`, with `webdiff_file_groups t2 ON t2.id = t0.file_group_id`. -/
def Database.groupsJoin (db : Database) : List ((FileRow × DefineFileRow) × FileGroupRow) :=
  db.filesJoin.flatMap fun t =>
    (db.fileGroups.filter fun t2 => t2.id = t.1.fileGroupId).map fun t2 => (t, t2)

/-- `version_id = left AND define_file_id NOT IN (SELECT define_file_id FROM webdiff_files t10
WHERE version_id = right AND t0.file_group_id = t10.file_group_id)`. -/
def Database.differs (db : Database) (left right : ℤ) (t0 : FileRow) : Bool :=
  t0.versionId = left &&
    !((db.files.filter fun t10 =>
      t10.versionId = right ∧ t0.fileGroupId = t10.fileGroupId).map fun t10 =>
        t10.defineFileId).contains t0.defineFileId

/-- The entry made of a row. -/
def diffFile (state : DiffState) (t : FileRow × DefineFileRow) : ModelDiffFile where
  id := t.1.id
  parentFileId := t.1.parentId
  defineFileId := t.1.defineFileId
  amountOfChildren := t.1.amountOfChildren
  filename := cString t.2.filename
  filepath := cString t.2.filepath
  state := state

/-- `getDiffFiles`. -/
def getDiffFiles (my : MySql) (db : Database) (leftVersionId rightVersionId : ℤ)
    (state : DiffState) (diffGroups : ModelDiffGroups) : ModelDiffGroups :=
  (my.scan (db.groupsJoin.filter fun t => db.differs leftVersionId rightVersionId t.1.1)).foldl
    (fun d t => d.addDiffFile ⟨t.1.1.fileGroupId, cString t.2.name⟩ (diffFile state t.1)) diffGroups

/-- `findAndAddFile`, with the stack `vParentFileIds`. It pushes the id of the row it found. -/
def findAndAddFile (my : MySql) (db : Database) (group : ModelGroup) (fileId : ℤ)
    (s : ModelDiffGroups × List ℤ) : ModelDiffGroups × List ℤ :=
  (my.scan (db.filesJoin.filter fun t => t.1.id = fileId)).foldl
    (fun s t => (s.1.addDiffFile group (diffFile .none t), t.1.id :: s.2)) s

/-- `getComments`. -/
def getComments (my : MySql) (db : Database) (defineFileId : ℤ) : List ModelComment :=
  (my.orderBy (fun a b => b.dtCreated ≤ a.dtCreated)
    (db.comments.filter fun t0 => t0.defineFileId = defineFileId ∧ t0.hided = 0)).map
      fun t0 => ⟨t0.id, t0.defineFileId, cString t0.comment⟩

/-! ### `MySqlStorage::getDiff` -/

/-- One round of the loop over the stack of parents, whose top is `vIds.back()`. -/
def parentsStep (my : MySql) (db : Database) (group : ModelGroup)
    (s : ModelDiffGroups × List ℤ) : ModelDiffGroups × List ℤ :=
  match s with
  | (d, []) => (d, [])
  | (d, fileId :: vIds) =>
    if fileId = 0 ∨ (d.mapGroups.getD group.id (ModelDiffGroup.new group)).hasFileId fileId then
      (d, vIds)
    else findAndAddFile my db group fileId (d, vIds)

/-- The loop for one group, with the stack it ends with. -/
def searchGroupParents (my : MySql) (db : Database) (group : ModelGroup) (parentFilesIds : List ℤ)
    (d : ModelDiffGroups) : ModelDiffGroups × List ℤ :=
  (parentsStep my db group)^[parentFilesIds.length + db.filesJoin.length]
    (d, parentFilesIds.reverse)

/-- One round of the loop over the groups. -/
def searchParentsOf (my : MySql) (db : Database) (d : ModelDiffGroups) (groupId : ℤ) :
    ModelDiffGroups :=
  match d.mapGroups[groupId]? with
  | none => d
  | some g => (searchGroupParents my db g.group g.parentFilesIds d).1

/-- The loop over the groups. -/
def searchParents (my : MySql) (db : Database) (d : ModelDiffGroups) : ModelDiffGroups :=
  d.mapGroups.keys.foldl (searchParentsOf my db) d

/-- The loop over the define ids. -/
def searchComments (my : MySql) (db : Database) (d : ModelDiffGroups) : ModelDiffGroups :=
  d.fileDefineIds.foldl
    (fun d defineFileId => d.setComments defineFileId (getComments my db defineFileId)) d

/-- `MySqlStorage::getDiff` on a new `ModelDiffGroups`. -/
def getDiff (my : MySql) (db : Database) (leftVersionId rightVersionId : ℤ) : ModelDiffGroups :=
  searchComments my db
    (searchParents my db
      (getDiffFiles my db rightVersionId leftVersionId .new
        (getDiffFiles my db leftVersionId rightVersionId .missing ModelDiffGroups.new)))

end WebDiff
