import WebDiff.Storage.Failures

/-!
# The storage without caches

`Database.step` gives the programs of the storage a second meaning, in which a lookup searches the
tables and an insertion into a cache does nothing. From caches that mirror the tables the two
meanings agree: same results, same statements, same tables (`agree_…`). So the caches can be
forgotten in every question about the tables of a server nothing fails in (`run_upload_db`), and a
restart, which only rebuilds the caches, changes nothing.
-/

namespace WebDiff

open Program Table

/-- The programs of the storage on the tables alone. -/
def Database.step (my : MySql) : Program.Interp Op Op.Res Database
  | .findVersion name, db =>
    ((db.versions.map VersionRow.toModel).find? fun ver => ver.name = name, db)
  | .pushVersion _, db => ((), db)
  | .findGroup title, db =>
    ((db.fileGroups.map FileGroupRow.toModel).find? fun gr => gr.title = title, db)
  | .pushGroup _, db => ((), db)
  | .findDefineFile filePath, db =>
    ((db.defineFiles.find? fun row => row.filepath = filePath).map DefineFileRow.id, db)
  | .putDefineFile _ _, db => ((), db)
  | .findFile versionId groupId defineFileId, db =>
    (((db.links.find? fun row => row.key = (versionId, groupId, defineFileId)).map
      FileLink.id).getD (-1), db)
  | .putFile _ _ _ _, db => ((), db)
  | .sql s, db => s.exec my db

/-- The caches of the world mirror the tables, and these are the tables. -/
structure Mirrors (w : World) (db : Database) : Prop where
  db_eq : w.db = db
  synced : Synced w

/-- A program does on the world what it does on the tables alone. -/
abbrev Agrees (my : MySql) {α : Type} (p : Storage α) (w : World) : Prop :=
  Agree (World.step my) (Database.step my) Mirrors p w w.db

variable {my : MySql} {w : World}

/-! ### Lookups -/

section Lookup

variable (h : Synced w)
include h

theorem Synced.find?_version (name : Bytes) :
    (w.caches.versions.find? fun ver => ver.name = name)
      = (w.db.versions.map VersionRow.toModel).find? fun ver => ver.name = name := by
  refine find?_key_perm h.cached.versions ?_ name
  refine ((h.cached.versions.map _).nodup_iff).mpr ?_
  rw [List.map_map]
  exact h.keyed.versionNames

theorem Synced.find?_group (title : Bytes) :
    (w.caches.groups.find? fun gr => gr.title = title)
      = (w.db.fileGroups.map FileGroupRow.toModel).find? fun gr => gr.title = title := by
  refine find?_key_perm h.cached.groups ?_ title
  refine ((h.cached.groups.map _).nodup_iff).mpr ?_
  rw [List.map_map]
  exact h.keyed.groupNames

theorem Synced.find?_defineFile (path : Bytes) :
    w.caches.defineFileIds path
      = (w.db.defineFiles.find? fun row => row.filepath = path).map DefineFileRow.id := by
  refine Option.ext fun id => ?_
  rw [h.cached.defineFileIds, Option.map_eq_some_iff]
  exact exists_congr fun row => by
    rw [find?_key_eq_some_iff h.keyed.filepaths, and_assoc]

theorem Synced.find?_file (v g d : ℤ) :
    w.caches.fileIds.findFileId v g d
      = ((w.db.links.find? fun row => row.key = (v, g, d)).map FileLink.id).getD (-1) := by
  rw [ModelCacheFilesVersion.findFileId_eq]
  congr 1
  refine Option.ext fun id => ?_
  rw [h.cached.fileIds, Option.map_eq_some_iff]
  exact exists_congr fun row => by
    rw [find?_key_eq_some_iff h.keyed.fileKeys, and_assoc]

end Lookup

/-! ### The functions agree -/

theorem agree_findVersionOrCreate (h : Synced w) (version : Bytes) :
    Agrees my (findVersionOrCreate version) w := by
  refine ⟨?_, ?_, ⟨?_, wp_run _ (wp_findVersionOrCreate h version)⟩⟩
  all_goals
    unfold findVersionOrCreate insertVersion sql Op.perform
    simp only [run_bind, run_perform, trace_bind, trace_perform, World.step, Database.step,
      h.find?_version]
    cases (w.db.versions.map VersionRow.toModel).find? fun ver => ver.name = version <;> rfl

theorem agree_findGroupOrCreate (h : Synced w) (group : Bytes) :
    Agrees my (findGroupOrCreate group) w := by
  refine ⟨?_, ?_, ⟨?_, wp_run _ (wp_findGroupOrCreate h group)⟩⟩
  all_goals
    unfold findGroupOrCreate insertGroup sql Op.perform
    simp only [run_bind, run_perform, trace_bind, trace_perform, World.step, Database.step,
      h.find?_group]
    cases (w.db.fileGroups.map FileGroupRow.toModel).find? fun gr => gr.title = group <;> rfl

theorem agree_findDefineFileIdOrCreate (h : Synced w) (path name : Bytes) (parent : ℤ) :
    Agrees my (findDefineFileIdOrCreate path name parent) w := by
  refine ⟨?_, ?_, ⟨?_, wp_run _ (wp_findDefineFileIdOrCreate h path name parent)⟩⟩
  all_goals
    unfold findDefineFileIdOrCreate WebDiff.insertDefineFile sql Op.perform
    simp only [run_bind, run_perform, trace_bind, trace_perform, World.step, Database.step,
      h.find?_defineFile]
    cases (w.db.defineFiles.find? fun row => row.filepath = path).map DefineFileRow.id <;> rfl

theorem agree_findFileOrCreate (h : Synced w) (v g d parent : ℤ) :
    Agrees my (findFileOrCreate v g d parent) w := by
  refine ⟨?_, ?_, ⟨?_, wp_run _ (wp_findFileOrCreate h v g d parent)⟩⟩
  all_goals
    unfold findFileOrCreate Op.perform
    simp only [run_bind, run_perform, trace_bind, trace_perform, World.step, Database.step,
      h.find?_file]
    unfold createFileIfAbsent
    split <;> rfl

theorem agree_addFileLoop (h : Synced w) (v g : ℤ) (names : List Bytes) (path : Bytes) (d f : ℤ) :
    Agrees my (addFileLoop v g names path d f) w := by
  induction names generalizing w path d f with
  | nil => exact Agree.pure () ⟨rfl, h⟩
  | cons name rest ih =>
    unfold addFileLoop
    split
    · exact ih h path d f
    · refine (agree_findDefineFileIdOrCreate h _ _ _).bind ?_
      rintro d' w' _ ⟨rfl, h'⟩
      refine (agree_findFileOrCreate h' _ _ _ _).bind ?_
      rintro f' w'' _ ⟨rfl, h''⟩
      exact ih h'' _ _ _

theorem agree_addFile (h : Synced w) (v g : ℤ) (file : FileInfo) :
    Agrees my (addFile v g file) w := by
  unfold addFile
  split
  · exact Agree.pure () ⟨rfl, h⟩
  · exact agree_addFileLoop h v g _ _ _ _

theorem agree_addFiles (h : Synced w) (v g : ℤ) (files : List FileInfo) :
    Agrees my (addFiles v g files) w := by
  induction files generalizing w with
  | nil => exact Agree.pure () ⟨rfl, h⟩
  | cons file rest ih =>
    refine (agree_addFile h v g file).bind ?_
    rintro _ w' _ ⟨rfl, h'⟩
    exact ih h'

theorem agree_upload (h : Synced w) (req : AddRequest) : Agrees my (upload req) w := by
  refine (agree_findVersionOrCreate h req.version).bind ?_
  rintro ver w₁ _ ⟨rfl, h₁⟩
  refine (agree_findGroupOrCreate h₁ req.group).bind ?_
  rintro gr w₂ _ ⟨rfl, h₂⟩
  refine (agree_addFiles h₂ ver.id gr.id req.files).bind ?_
  rintro _ w₃ _ ⟨rfl, h₃⟩
  exact Agree.pure _ ⟨rfl, h₃⟩

theorem agree_call (h : Synced w) (c : Call) : Agrees my c.program w := by
  cases c with
  | findVersionOrCreate version =>
    refine (agree_findVersionOrCreate h version).bind ?_
    rintro _ w' _ ⟨rfl, h'⟩
    exact Agree.pure () ⟨rfl, h'⟩
  | findGroupOrCreate group =>
    refine (agree_findGroupOrCreate h group).bind ?_
    rintro _ w' _ ⟨rfl, h'⟩
    exact Agree.pure () ⟨rfl, h'⟩
  | addFile v g file => exact agree_addFile h v g file

end WebDiff
