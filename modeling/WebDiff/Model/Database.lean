import Mathlib.Data.List.Sort
import WebDiff.Framework.Table
import WebDiff.Model.Path

/-!
# The tables and the statements of the storage

The five tables the server reads and writes, each as the list of its rows in the order of
insertion, and the statements of `MySqlStorageConnection` that write them, together with the
`COUNT` that `insertFile` runs between two writes (`Sql`, `Sql.exec`). Every statement is a
transaction of its own, so a statement is one atomic step on the tables.

What the server leaves to MySQL is collected in `MySql`: the next `AUTO_INCREMENT` id, the order of
the rows of a `SELECT` without `ORDER BY`, and the collation of `ORDER BY name`.
-/

namespace WebDiff

/-! ### Rows -/

/-- A row of `webdiff_versions`. The column `comment` is always written as `''` and never read. -/
structure VersionRow where
  id : ℤ
  name : Bytes
deriving DecidableEq, Repr

/-- A row of `webdiff_file_groups`. -/
structure FileGroupRow where
  id : ℤ
  name : Bytes
deriving DecidableEq, Repr

/-- A row of `webdiff_define_files`: one path, whatever version and group it occurs in. -/
structure DefineFileRow where
  id : ℤ
  filepath : Bytes
  filename : Bytes
  parentId : ℤ
deriving DecidableEq, Repr

/-- The columns of `webdiff_files` that are written once, when the row is inserted. -/
structure FileLink where
  id : ℤ
  versionId : ℤ
  fileGroupId : ℤ
  defineFileId : ℤ
  parentId : ℤ
deriving DecidableEq, Repr

/-- A row of `webdiff_files`. Only `amount_of_children` changes after the insertion. -/
structure FileRow extends FileLink where
  amountOfChildren : ℤ
deriving DecidableEq, Repr

/-- A row of `webdiff_define_files_comments`. `dtCreated` is the value `NOW()` had. -/
structure CommentRow where
  id : ℤ
  defineFileId : ℤ
  comment : Bytes
  dtCreated : ℤ
  hided : ℤ
deriving DecidableEq, Repr

/-- The columns that make up the key of a row of `webdiff_files` in the caches. -/
def FileLink.key (l : FileLink) : ℤ × ℤ × ℤ :=
  (l.versionId, l.fileGroupId, l.defineFileId)

/-- The contents of the tables. -/
structure Database where
  versions : List VersionRow
  fileGroups : List FileGroupRow
  defineFiles : List DefineFileRow
  files : List FileRow
  comments : List CommentRow
deriving DecidableEq, Repr

/-- The schema with empty tables. -/
def Database.empty : Database := ⟨[], [], [], [], []⟩

/-- The rows of `webdiff_files` without the counter. -/
def Database.links (db : Database) : List FileLink :=
  db.files.map FileRow.toFileLink

/-- `webdiff_files t0 INNER JOIN webdiff_define_files t1 ON t1.id = t0.define_file_id`. -/
def Database.filesJoin (db : Database) : List (FileRow × DefineFileRow) :=
  db.files.flatMap fun t0 =>
    (db.defineFiles.filter fun t1 => t1.id = t0.defineFileId).map fun t1 => (t0, t1)

/-! ### What is left to MySQL -/

/-- The tables with an `AUTO_INCREMENT` id. -/
inductive TableName
  | versions | fileGroups | defineFiles | files | comments
deriving DecidableEq, Repr

/-- The choices of the MySQL server. -/
structure MySql where
  /-- The id of the next row of a table, given the last id used in it. Ids may skip values. -/
  next : TableName → ℤ → ℤ
  lt_next : ∀ t n, n < next t n
  /-- The order in which a `SELECT` without `ORDER BY` returns its rows. -/
  scan : {α : Type} → List α → List α
  scan_perm : ∀ {α : Type} (rows : List α), (scan rows).Perm rows
  /-- The collation: `collate a b` when `a` may stand in front of `b`. -/
  collate : Bytes → Bytes → Bool
  collate_total : ∀ a b, collate a b || collate b a
  collate_trans : ∀ a b c, collate a b → collate b c → collate a c

/-- Byte order, shorter strings first where one is a prefix of the other. -/
def bytesLe : Bytes → Bytes → Bool
  | [], _ => true
  | _ :: _, [] => false
  | a :: as, b :: bs => a.toNat < b.toNat || (a = b && bytesLe as bs)

theorem bytesLe_total : ∀ a b, bytesLe a b || bytesLe b a
  | [], _ => rfl
  | _ :: _, [] => by simp [bytesLe]
  | a :: as, b :: bs => by
    have ih := bytesLe_total as bs
    rcases lt_trichotomy a.toNat b.toNat with h | h | h
    · simp [bytesLe, h]
    · obtain rfl := UInt8.toNat_inj.mp h
      simpa [bytesLe] using ih
    · simp [bytesLe, h]

theorem bytesLe_trans : ∀ a b c, bytesLe a b → bytesLe b c → bytesLe a c
  | [], _, _, _, _ => rfl
  | _ :: _, [], _, h, _ => by simp [bytesLe] at h
  | _ :: _, _ :: _, [], _, h => by simp [bytesLe] at h
  | a :: as, b :: bs, c :: cs, hab, hbc => by
    simp only [bytesLe, Bool.or_eq_true, Bool.and_eq_true, decide_eq_true_eq] at hab hbc ⊢
    rcases hab with hab | ⟨rfl, hab⟩
    · rcases hbc with hbc | ⟨rfl, -⟩
      · exact Or.inl (lt_trans hab hbc)
      · exact Or.inl hab
    · rcases hbc with hbc | ⟨rfl, hbc⟩
      · exact Or.inl hbc
      · exact Or.inr ⟨rfl, bytesLe_trans as bs cs hab hbc⟩

theorem bytesLe_antisymm : ∀ a b, bytesLe a b = true → bytesLe b a = true → a = b
  | [], [], _, _ => rfl
  | [], _ :: _, _, h => by simp [bytesLe] at h
  | _ :: _, [], h, _ => by simp [bytesLe] at h
  | a :: as, b :: bs, hab, hba => by
    simp only [bytesLe, Bool.or_eq_true, Bool.and_eq_true, decide_eq_true_eq] at hab hba
    rcases hab with hab | ⟨rfl, hab⟩
    · rcases hba with hba | ⟨rfl, -⟩
      · exact absurd hab (lt_asymm hba)
      · exact absurd hab (lt_irrefl _)
    · rcases hba with hba | ⟨-, hba⟩
      · exact absurd hba (lt_irrefl _)
      · rw [bytesLe_antisymm as bs hab hba]

/-- The usual choices: ids without gaps, rows in the order of insertion, binary collation. -/
def MySql.innodb : MySql where
  next _ n := n + 1
  lt_next _ n := by omega
  scan rows := rows
  scan_perm _ := List.Perm.refl _
  collate := bytesLe
  collate_total := bytesLe_total
  collate_trans := bytesLe_trans

namespace MySql

variable (my : MySql)

/-- The rows of a `SELECT … ORDER BY`. -/
def orderBy {α : Type} (le : α → α → Bool) (rows : List α) : List α :=
  (my.scan rows).mergeSort le

theorem orderBy_perm {α : Type} (le : α → α → Bool) (rows : List α) :
    (my.orderBy le rows).Perm rows :=
  (List.mergeSort_perm _ _).trans (my.scan_perm rows)

@[simp] theorem mem_scan {α : Type} {a : α} {rows : List α} : a ∈ my.scan rows ↔ a ∈ rows :=
  (my.scan_perm rows).mem_iff

/-- The id `AUTO_INCREMENT` gives to the next row. -/
def nextId {R : Type} (t : TableName) (id : R → ℤ) (rows : List R) : ℤ :=
  my.next t (Table.lastId id rows)

theorem lastId_lt_nextId {R : Type} (t : TableName) (id : R → ℤ) (rows : List R) :
    Table.lastId id rows < my.nextId t id rows :=
  my.lt_next _ _

end MySql

/-! ### Statements -/

/-- The statements that write, and the `COUNT` of `insertFile`. -/
inductive Sql
  /-- `INSERT INTO webdiff_versions(name, comment) VALUES(name, '')` -/
  | insertVersion (name : Bytes)
  /-- `INSERT INTO webdiff_file_groups(name) VALUES(name)` -/
  | insertGroup (name : Bytes)
  /-- `INSERT INTO webdiff_define_files(filepath, filename, parent_id) VALUES(…)` -/
  | insertDefineFile (filepath filename : Bytes) (parentId : ℤ)
  /-- `INSERT INTO webdiff_files(version_id, file_group_id, define_file_id, parent_id) VALUES(…)` -/
  | insertFile (versionId fileGroupId defineFileId parentId : ℤ)
  /-- `SELECT COUNT(id) as cnt FROM webdiff_files WHERE parent_id = parentId` -/
  | selectCount (parentId : ℤ)
  /-- `UPDATE webdiff_files SET amount_of_children = amountOfChildren WHERE id = id` -/
  | updateAmountOfChildren (amountOfChildren id : ℤ)
  /-- `INSERT INTO webdiff_define_files_comments(define_file_id, comment, dt_created)
  VALUES(defineFileId, comment, NOW())`, where `NOW()` returns `now` -/
  | insertComment (defineFileId : ℤ) (comment : Bytes) (now : ℤ)
  /-- `UPDATE webdiff_define_files_comments SET hided = 1 WHERE id = id` -/
  | updateHided (id : ℤ)
deriving DecidableEq, Repr

/-- What the caller reads after a statement: `mysql_insert_id`, the count, or nothing. -/
@[reducible] def Sql.Res : Sql → Type
  | .updateAmountOfChildren _ _ => Unit
  | .updateHided _ => Unit
  | _ => ℤ

/-- `UPDATE webdiff_files SET amount_of_children = amount WHERE id = id` on one row. -/
def FileRow.setAmount (amount id : ℤ) (f : FileRow) : FileRow :=
  if f.id = id then { f with amountOfChildren := amount } else f

@[simp] theorem FileRow.setAmount_toFileLink (amount id : ℤ) (f : FileRow) :
    (f.setAmount amount id).toFileLink = f.toFileLink := by
  unfold FileRow.setAmount; split <;> rfl

/-- `UPDATE webdiff_define_files_comments SET hided = 1 WHERE id = id` on one row. -/
def CommentRow.hide (id : ℤ) (c : CommentRow) : CommentRow :=
  if c.id = id then { c with hided := 1 } else c

theorem CommentRow.hide_eq (id : ℤ) (c : CommentRow) :
    c.hide id = { c with hided := if id = c.id then 1 else c.hided } := by
  unfold CommentRow.hide
  by_cases h : c.id = id
  · rw [if_pos h, if_pos h.symm]
  · rw [if_neg h, if_neg (Ne.symm h)]

/-- The effect of a statement that succeeds. -/
def Sql.exec (my : MySql) : (s : Sql) → Database → s.Res × Database
  | .insertVersion name, db =>
    let id := my.nextId .versions VersionRow.id db.versions
    (id, { db with versions := db.versions ++ [⟨id, name⟩] })
  | .insertGroup name, db =>
    let id := my.nextId .fileGroups FileGroupRow.id db.fileGroups
    (id, { db with fileGroups := db.fileGroups ++ [⟨id, name⟩] })
  | .insertDefineFile filepath filename parentId, db =>
    let id := my.nextId .defineFiles DefineFileRow.id db.defineFiles
    (id, { db with defineFiles := db.defineFiles ++ [⟨id, filepath, filename, parentId⟩] })
  | .insertFile versionId fileGroupId defineFileId parentId, db =>
    let id := my.nextId .files FileLink.id db.links
    (id, { db with
      files := db.files ++ [⟨⟨id, versionId, fileGroupId, defineFileId, parentId⟩, 0⟩] })
  | .selectCount parentId, db =>
    ((db.links.countP fun l => l.parentId = parentId : ℕ), db)
  | .updateAmountOfChildren amountOfChildren id, db =>
    ((), { db with files := db.files.map (FileRow.setAmount amountOfChildren id) })
  | .insertComment defineFileId comment now, db =>
    let id := my.nextId .comments CommentRow.id db.comments
    (id, { db with comments := db.comments ++ [⟨id, defineFileId, comment, now, 0⟩] })
  | .updateHided id, db =>
    ((), { db with comments := db.comments.map (CommentRow.hide id) })

end WebDiff
