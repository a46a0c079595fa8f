import WebDiff.Framework.Program
import WebDiff.Model.Diff

/-!
# The statements of a diff

`MySqlStorage::getDiff` runs its `SELECT`s one after another without a transaction around them, so
the connections of other threads may write between any two of them. Here it is the program of these
statements (`getDiffStatements`), whose meaning depends on the tables that each of them finds
(`seeing`).
-/

namespace WebDiff

open Program

/-- The statements of `getDiff`. -/
inductive DiffQuery
  /-- the `SELECT` of `getDiffFiles` -/
  | diffFiles (leftVersionId rightVersionId : ℤ)
  /-- the `SELECT` of `findAndAddFile` -/
  | file (fileId : ℤ)
  /-- the `SELECT` of `getComments` -/
  | comments (defineFileId : ℤ)

/-- The rows the caller reads. -/
@[reducible] def DiffQuery.Res : DiffQuery → Type
  | .diffFiles _ _ => List ((FileRow × DefineFileRow) × FileGroupRow)
  | .file _ => List (FileRow × DefineFileRow)
  | .comments _ => List ModelComment

/-- What a statement returns on these tables. -/
def DiffQuery.select (my : MySql) (db : Database) : (q : DiffQuery) → q.Res
  | .diffFiles leftVersionId rightVersionId =>
    my.scan (db.groupsJoin.filter fun t => db.differs leftVersionId rightVersionId t.1.1)
  | .file fileId => my.scan (db.filesJoin.filter fun t => t.1.id = fileId)
  | .comments defineFileId => getComments my db defineFileId

/-- The programs of these statements. -/
abbrev Reader := Program DiffQuery DiffQuery.Res

/-- One statement as a program. -/
def DiffQuery.perform (q : DiffQuery) : Reader q.Res :=
  Program.perform q

/-- The statement number `n` of a run sees the tables `dbs n`. -/
def seeing (my : MySql) (dbs : ℕ → Database) : Interp DiffQuery DiffQuery.Res ℕ := fun q n =>
  (q.select my (dbs n), n + 1)

/-- `getDiffFiles`. -/
def readDiffFiles (leftVersionId rightVersionId : ℤ) (state : DiffState)
    (diffGroups : ModelDiffGroups) : Reader ModelDiffGroups := do
  let rows ← DiffQuery.perform (.diffFiles leftVersionId rightVersionId)
  return rows.foldl
    (fun d t => d.addDiffFile ⟨t.1.1.fileGroupId, cString t.2.name⟩ (diffFile state t.1)) diffGroups

/-- `findAndAddFile`, with the stack `vParentFileIds`. -/
def readAndAddFile (group : ModelGroup) (fileId : ℤ) (s : ModelDiffGroups × List ℤ) :
    Reader (ModelDiffGroups × List ℤ) := do
  let rows ← DiffQuery.perform (.file fileId)
  return rows.foldl (fun s t => (s.1.addDiffFile group (diffFile .none t), t.1.id :: s.2)) s

/-- The loop over the stack of parents of one group, with fuel for its rounds. -/
def parentsLoop (group : ModelGroup) : (fuel : ℕ) → ModelDiffGroups × List ℤ →
    Reader (Option ModelDiffGroups)
  | 0, _ => return none
  | _ + 1, (d, []) => return some d
  | fuel + 1, (d, fileId :: vIds) =>
    if fileId = 0 ∨ (d.mapGroups.getD group.id (ModelDiffGroup.new group)).hasFileId fileId then
      parentsLoop group fuel (d, vIds)
    else do
      let s ← readAndAddFile group fileId (d, vIds)
      parentsLoop group fuel s

/-- One round of the loop over the groups. -/
def readParentsOf (fuel : ℕ) (d : ModelDiffGroups) (groupId : ℤ) :
    Reader (Option ModelDiffGroups) :=
  match d.mapGroups[groupId]? with
  | none => return some d
  | some g => parentsLoop g.group fuel (d, g.parentFilesIds.reverse)

/-- The loop over the groups. -/
def readParents (fuel : ℕ) : List ℤ → ModelDiffGroups → Reader (Option ModelDiffGroups)
  | [], d => return some d
  | groupId :: rest, d => do
    match ← readParentsOf fuel d groupId with
    | none => return none
    | some d => readParents fuel rest d

/-- The loop over the define ids. -/
def readComments : List ℤ → ModelDiffGroups → Reader ModelDiffGroups
  | [], d => return d
  | defineFileId :: rest, d => do
    let comments ← DiffQuery.perform (.comments defineFileId)
    readComments rest (d.setComments defineFileId comments)

/-- What `getDiff` does behind the loop over the groups. -/
def finishDiff : Option ModelDiffGroups → Reader (Option ModelDiffGroups)
  | none => return none
  | some d => do
    let d ← readComments d.fileDefineIds d
    return some d

/-- `MySqlStorage::getDiff` on a new `ModelDiffGroups`. -/
def getDiffStatements (fuel : ℕ) (leftVersionId rightVersionId : ℤ) :
    Reader (Option ModelDiffGroups) := do
  let d ← readDiffFiles leftVersionId rightVersionId .missing ModelDiffGroups.new
  let d ← readDiffFiles rightVersionId leftVersionId .new d
  let d ← readParents fuel d.mapGroups.keys d
  finishDiff d

end WebDiff
