import WebDiff.Framework.Program
import WebDiff.Model.Cache
import WebDiff.Model.Database

/-!
# The upload path of the storage

`MySqlStorage` and the part of `MySqlStorageConnection` it calls to store an upload, as programs
over atomic operations: a lookup or an insertion in one of the caches of `MySqlStorage`, or one SQL
statement (`Op`). The programs follow the source line by line; what an operation does to the tables
and the caches is `World.step`.
-/

namespace WebDiff

/-! ### The models the caches hold -/

/-- `ModelVersion`. -/
@[ext] structure ModelVersion where
  id : ℤ
  name : Bytes
deriving DecidableEq, Repr

/-- `ModelGroup`. -/
@[ext] structure ModelGroup where
  id : ℤ
  title : Bytes
deriving DecidableEq, Repr

/-- The caches of `MySqlStorage`. -/
structure Caches where
  versions : List ModelVersion
  groups : List ModelGroup
  defineFileIds : Bytes → Option ℤ
  fileIds : ModelCacheFilesVersion

/-- The caches of a `MySqlStorage` that has not loaded anything. -/
def Caches.empty : Caches := ⟨[], [], fun _ => none, ModelCacheFilesVersion.new⟩

/-- The tables together with the caches of the server process. -/
structure World where
  db : Database
  caches : Caches

/-- Empty tables and empty caches. -/
def World.empty : World := ⟨Database.empty, Caches.empty⟩

/-! ### Atomic operations -/

/-- The atomic operations of the storage. -/
inductive Op
  /-- the scan of `m_vVersions` for a name -/
  | findVersion (name : Bytes)
  /-- `m_vVersions.push_back` -/
  | pushVersion (ver : ModelVersion)
  /-- the scan of `m_vGroups` for a title -/
  | findGroup (title : Bytes)
  /-- `m_vGroups.push_back` -/
  | pushGroup (gr : ModelGroup)
  /-- `m_mapCacheFileDefinsIds.find` -/
  | findDefineFile (filePath : Bytes)
  /-- `m_mapCacheFileDefinsIds[filePath] = defineFileId` -/
  | putDefineFile (filePath : Bytes) (defineFileId : ℤ)
  /-- `m_cacheGroups.findFileId` -/
  | findFile (versionId groupId defineFileId : ℤ)
  /-- `m_cacheGroups.add` -/
  | putFile (versionId groupId defineFileId fileId : ℤ)
  /-- one statement -/
  | sql (s : Sql)
deriving DecidableEq, Repr

/-- The result of an operation. -/
@[reducible] def Op.Res : Op → Type
  | .findVersion _ => Option ModelVersion
  | .findGroup _ => Option ModelGroup
  | .findDefineFile _ => Option ℤ
  | .findFile _ _ _ => ℤ
  | .sql s => s.Res
  | _ => Unit

/-- The operations that go to the database, and can fail there. -/
def Op.isSql : Op → Bool
  | .sql _ => true
  | _ => false

/-- The programs of the storage. -/
abbrev Storage := Program Op Op.Res

/-- One operation as a program. -/
def Op.perform (o : Op) : Storage o.Res :=
  Program.perform o

/-- One statement as a program. -/
def sql (s : Sql) : Storage s.Res :=
  Op.perform (.sql s)

/-- One operation on the caches, or one statement that succeeds. -/
def World.step (my : MySql) : Program.Interp Op Op.Res World
  | .findVersion name, w => (w.caches.versions.find? fun ver => ver.name = name, w)
  | .pushVersion ver, w =>
    ((), { w with caches := { w.caches with versions := w.caches.versions ++ [ver] } })
  | .findGroup title, w => (w.caches.groups.find? fun gr => gr.title = title, w)
  | .pushGroup gr, w =>
    ((), { w with caches := { w.caches with groups := w.caches.groups ++ [gr] } })
  | .findDefineFile filePath, w => (w.caches.defineFileIds filePath, w)
  | .putDefineFile filePath defineFileId, w =>
    ((), { w with caches := { w.caches with
      defineFileIds := Function.update w.caches.defineFileIds filePath (some defineFileId) } })
  | .findFile versionId groupId defineFileId, w =>
    (w.caches.fileIds.findFileId versionId groupId defineFileId, w)
  | .putFile versionId groupId defineFileId fileId, w =>
    ((), { w with caches := { w.caches with
      fileIds := w.caches.fileIds.add versionId groupId defineFileId fileId } })
  | .sql s, w => ((s.exec my w.db).1, { w with db := (s.exec my w.db).2 })

/-! ### `MySqlStorageConnection` -/

/-- `insertVersion`. -/
def insertVersion (version : Bytes) : Storage ModelVersion := do
  let lastInsertedId ← sql (.insertVersion version)
  return ⟨lastInsertedId, version⟩

/-- `insertGroup`. -/
def insertGroup (group : Bytes) : Storage ModelGroup := do
  let lastInsertedId ← sql (.insertGroup group)
  return ⟨lastInsertedId, group⟩

/-- `insertDefineFile`. -/
def insertDefineFile (filepath filename : Bytes) (parentId : ℤ) : Storage ℤ :=
  sql (.insertDefineFile filepath filename parentId)

/-- `insertFile`: the row, then the number of children of its parent, then the parent's counter. -/
def insertFile (versionId groupId defineFileId fileParentId : ℤ) : Storage ℤ := do
  let ret ← sql (.insertFile versionId groupId defineFileId fileParentId)
  let amountOfChildren ← sql (.selectCount fileParentId)
  sql (.updateAmountOfChildren amountOfChildren fileParentId)
  return ret

/-! ### `MySqlStorage` -/

/-- `findVersionOrCreate`. -/
def findVersionOrCreate (version : Bytes) : Storage ModelVersion := do
  match ← Op.perform (.findVersion version) with
  | some ret => return ret
  | none =>
    let ret ← insertVersion version
    Op.perform (.pushVersion ret)
    return ret

/-- `findGroupOrCreate`. -/
def findGroupOrCreate (group : Bytes) : Storage ModelGroup := do
  match ← Op.perform (.findGroup group) with
  | some ret => return ret
  | none =>
    let ret ← insertGroup group
    Op.perform (.pushGroup ret)
    return ret

/-- `findDefineFileIdOrCreate`. The parent is only used when the path is new. -/
def findDefineFileIdOrCreate (filePath fileName : Bytes) (defineFileId : ℤ) : Storage ℤ := do
  match ← Op.perform (.findDefineFile filePath) with
  | some found => return found
  | none =>
    let newDefineFileId ← insertDefineFile filePath fileName defineFileId
    Op.perform (.putDefineFile filePath newDefineFileId)
    return newDefineFileId

/-- `findFileOrCreate` behind the lookup, which answered `fileId`. -/
def createFileIfAbsent (versionId groupId defineFileId fileParentId fileId : ℤ) : Storage ℤ :=
  if fileId ≠ -1 then
    return fileId
  else do
    let fileId ← insertFile versionId groupId defineFileId fileParentId
    Op.perform (.putFile versionId groupId defineFileId fileId)
    return fileId

/-- `findFileOrCreate`. The parent is only used when the row is new. -/
def findFileOrCreate (versionId groupId defineFileId fileParentId : ℤ) : Storage ℤ := do
  let fileId ← Op.perform (.findFile versionId groupId defineFileId)
  createFileIfAbsent versionId groupId defineFileId fileParentId fileId

/-- The loop of `addFile` over the components, with its three variables. -/
def addFileLoop (versionId groupId : ℤ) : List Bytes → Bytes → ℤ → ℤ → Storage Unit
  | [], _, _, _ => return ()
  | name :: rest, newFilePath, defineFileId, fileParentId =>
    if name = [] then
      addFileLoop versionId groupId rest newFilePath defineFileId fileParentId
    else do
      let newFilePath := newFilePath ++ slash :: name
      let defineFileId ← findDefineFileIdOrCreate newFilePath name defineFileId
      let fileParentId ← findFileOrCreate versionId groupId defineFileId fileParentId
      addFileLoop versionId groupId rest newFilePath defineFileId fileParentId

/-- One element of the `files` of an upload. -/
structure FileInfo where
  filePath : Bytes
  fileSize : ℤ
  compressSize : ℤ
  mode : Bytes
  isDir : Bool
  dateTime : Bytes
deriving DecidableEq, Repr

/-- `addFile`. Of the description of the file only the path is used. -/
def addFile (versionId groupId : ℤ) (file : FileInfo) : Storage Unit :=
  if file.filePath = [] ∨ file.filePath = [slash] then
    return ()
  else
    let path := doNormalizePath file.filePath
    addFileLoop versionId groupId (split path slash) [] 0 0

/-- The loop skips the empty names. -/
theorem addFileLoop_filter (v g : ℤ) (names : List Bytes) (path : Bytes) (d f : ℤ) :
    addFileLoop v g (names.filter (· ≠ [])) path d f = addFileLoop v g names path d f := by
  induction names generalizing path d f with
  | nil => rfl
  | cons name rest ih =>
    by_cases hname : name = []
    · simp only [hname, ne_eq, decide_not, decide_true, Bool.not_true,
        Bool.false_eq_true, not_false_eq_true, List.filter_cons_of_neg, addFileLoop, if_true]
      simpa using ih path d f
    · rw [List.filter_cons_of_pos (by simpa using hname)]
      simp only [addFileLoop, if_neg hname, ih]

/-- The path the file is stored under. -/
def FileInfo.path (file : FileInfo) : Path :=
  pathOf file.filePath

/-- `addFile` is its loop over the components of the path. -/
theorem addFile_eq (v g : ℤ) (file : FileInfo) :
    addFile v g file = addFileLoop v g (file.path.map Subtype.val) [] 0 0 := by
  unfold addFile FileInfo.path
  rw [pathOf_map_val]
  unfold pathComponents
  split
  · rfl
  · exact (addFileLoop_filter v g _ _ _ _).symm

/-! ### Uploads -/

/-- The contents of a request to `/api/add/`. -/
structure AddRequest where
  version : Bytes
  group : Bytes
  files : List FileInfo
deriving DecidableEq, Repr

/-- The loop of `httpApiAdd` over the files. -/
def addFiles (versionId groupId : ℤ) : List FileInfo → Storage Unit
  | [] => return ()
  | file :: rest => do
    addFile versionId groupId file
    addFiles versionId groupId rest

/-- What `httpApiAdd` does with a well-formed request. -/
def upload (req : AddRequest) : Storage (ModelVersion × ModelGroup) := do
  let ver ← findVersionOrCreate req.version
  let gr ← findGroupOrCreate req.group
  addFiles ver.id gr.id req.files
  return (ver, gr)

/-! ### Comments -/

/-- `ModelComment`. -/
structure ModelComment where
  id : ℤ
  defineFileId : ℤ
  comment : Bytes
deriving DecidableEq, Repr

/-- `addComment`, at the time `now`. -/
def addComment (defineFileId : ℤ) (comment : Bytes) (now : ℤ) : Storage ModelComment := do
  let lastInsertedId ← sql (.insertComment defineFileId comment now)
  return ⟨lastInsertedId, defineFileId, comment⟩

/-- `hideComment`. -/
def hideComment (commentId : ℤ) : Storage Unit :=
  sql (.updateHided commentId)

/-! ### `loadCache` -/

/-- `getApiVersionsAll`. -/
def getApiVersionsAll (my : MySql) (db : Database) : List ModelVersion :=
  (my.orderBy (fun a b => my.collate a.name b.name) db.versions).map
    fun row => ⟨row.id, cString row.name⟩

/-- `MySqlStorageConnection::getGroupsAll`. -/
def getGroupsAll (my : MySql) (db : Database) : List ModelGroup :=
  (my.orderBy (fun a b => my.collate a.name b.name) db.fileGroups).map
    fun row => ⟨row.id, cString row.name⟩

/-- `getDefineFilesCache`: every row overwrites the entry of its path. -/
def getDefineFilesCache (my : MySql) (db : Database) (cache : Bytes → Option ℤ) :
    Bytes → Option ℤ :=
  (my.scan db.defineFiles).foldl
    (fun cache row => Function.update cache (cString row.filepath) (some row.id)) cache

/-- `loadFilesIds`. -/
def loadFilesIds (my : MySql) (db : Database) (cache : ModelCacheFilesVersion) :
    ModelCacheFilesVersion :=
  (my.scan db.links).foldl
    (fun cache row => cache.add row.versionId row.fileGroupId row.defineFileId row.id) cache

/-- `MySqlStorage::loadCache` of a new `MySqlStorage`. -/
def loadCache (my : MySql) (db : Database) : Caches where
  versions := getApiVersionsAll my db
  groups := getGroupsAll my db
  defineFileIds := getDefineFilesCache my db Caches.empty.defineFileIds
  fileIds := loadFilesIds my db Caches.empty.fileIds

/-- The server process ends and a new one starts on the same tables. -/
def World.restart (my : MySql) (w : World) : World :=
  ⟨w.db, loadCache my w.db⟩

end WebDiff
