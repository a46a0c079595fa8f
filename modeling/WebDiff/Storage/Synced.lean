import WebDiff.Model.Storage

/-!
# The caches mirror the tables

`Keyed` says that the tables are tables: ids increase, and names, paths and the keys of
`webdiff_files` do not repeat. `Cached` says that the caches hold exactly the keys and ids of the
rows. The two together (`Synced`) are kept by the find-or-create functions as long as nothing fails,
and also when an `INSERT` fails. They are lost exactly when the run stops at one of the two
statements `insertFile` executes after its `INSERT` (`Op.isRecount`): the row is in the table, and
the caller never learns its id.

The rules `wp_…` state both facts at once, as the two postconditions of `Program.wp`.
-/

namespace WebDiff

open Table

/-- The model `MySqlStorageConnection` makes of a row. -/
def VersionRow.toModel (r : VersionRow) : ModelVersion := ⟨r.id, r.name⟩

/-- The model `MySqlStorageConnection` makes of a row. -/
def FileGroupRow.toModel (r : FileGroupRow) : ModelGroup := ⟨r.id, r.name⟩

@[simp] theorem VersionRow.toModel_name (r : VersionRow) : r.toModel.name = r.name := rfl

@[simp] theorem FileGroupRow.toModel_title (r : FileGroupRow) : r.toModel.title = r.name := rfl

/-! ### The invariants -/

/-- The ids of every table increase, and no key occurs twice. -/
structure Keyed (db : Database) : Prop where
  versionIds : Increasing VersionRow.id db.versions
  versionNames : (db.versions.map VersionRow.name).Nodup
  groupIds : Increasing FileGroupRow.id db.fileGroups
  groupNames : (db.fileGroups.map FileGroupRow.name).Nodup
  defineFileIds : Increasing DefineFileRow.id db.defineFiles
  filepaths : (db.defineFiles.map DefineFileRow.filepath).Nodup
  fileIds : Increasing FileLink.id db.links
  fileKeys : (db.links.map FileLink.key).Nodup

/-- The caches hold exactly the keys and ids of the rows. -/
structure Cached (db : Database) (c : Caches) : Prop where
  versions : c.versions.Perm (db.versions.map VersionRow.toModel)
  groups : c.groups.Perm (db.fileGroups.map FileGroupRow.toModel)
  defineFileIds : ∀ path id, c.defineFileIds path = some id ↔
    ∃ row ∈ db.defineFiles, row.filepath = path ∧ row.id = id
  fileIds : ∀ key id, c.fileIds.lookup key = some id ↔
    ∃ row ∈ db.links, row.key = key ∧ row.id = id

/-- The tables are keyed and the caches mirror them. -/
structure Synced (w : World) : Prop where
  keyed : Keyed w.db
  cached : Cached w.db w.caches

theorem Keyed.empty : Keyed Database.empty where
  versionIds := Increasing.nil
  versionNames := List.nodup_nil
  groupIds := Increasing.nil
  groupNames := List.nodup_nil
  defineFileIds := Increasing.nil
  filepaths := List.nodup_nil
  fileIds := Increasing.nil
  fileKeys := List.nodup_nil

theorem Synced.empty : Synced World.empty where
  keyed := Keyed.empty
  cached :=
    { versions := List.Perm.refl _
      groups := List.Perm.refl _
      defineFileIds := fun _ _ => by simp [World.empty, Caches.empty, Database.empty]
      fileIds := fun _ _ => by
        simp [World.empty, Caches.empty, Database.empty, Database.links] }

@[simp] theorem links_insertFile (my : MySql) (db : Database) (v g d parent : ℤ) :
    ((Sql.insertFile v g d parent).exec my db).2.links
      = db.links ++ [⟨my.nextId .files FileLink.id db.links, v, g, d, parent⟩] := by
  simp [Sql.exec, Database.links]

/-- A row that only differs in its counter is the same row to the caches and the keys. -/
@[simp] theorem links_updateAmount (my : MySql) (db : Database) (amount id : ℤ) :
    ((Sql.updateAmountOfChildren amount id).exec my db).2.links = db.links := by
  simp [Sql.exec, Database.links, List.map_map, Function.comp_def]

/-! ### What a lookup answers -/

section Lookup

variable {db : Database} {c : Caches}

theorem Cached.defineFileIds_eq_none (h : Cached db c) {path : Bytes} :
    c.defineFileIds path = none ↔ ∀ row ∈ db.defineFiles, row.filepath ≠ path := by
  rw [Option.eq_none_iff_forall_ne_some]
  constructor
  · intro hnone row hrow hpath
    exact hnone row.id ((h.defineFileIds path row.id).mpr ⟨row, hrow, hpath, rfl⟩)
  · intro hfresh id hid
    obtain ⟨row, hrow, hpath, -⟩ := (h.defineFileIds path id).mp hid
    exact hfresh row hrow hpath

theorem Cached.fileIds_eq_none (h : Cached db c) {key : ℤ × ℤ × ℤ} :
    c.fileIds.lookup key = none ↔ ∀ row ∈ db.links, row.key ≠ key := by
  rw [Option.eq_none_iff_forall_ne_some]
  constructor
  · intro hnone row hrow hkey
    exact hnone row.id ((h.fileIds key row.id).mpr ⟨row, hrow, hkey, rfl⟩)
  · intro hfresh id hid
    obtain ⟨row, hrow, hkey, -⟩ := (h.fileIds key id).mp hid
    exact hfresh row hrow hkey

/-- No row has the id `-1`, so `-1` means that the key is absent. -/
theorem Synced.findFileId_eq_neg_one {w : World} (h : Synced w) {v g d : ℤ} :
    w.caches.fileIds.findFileId v g d = -1 ↔ w.caches.fileIds.lookup (v, g, d) = none := by
  rw [ModelCacheFilesVersion.findFileId_eq]
  cases hl : w.caches.fileIds.lookup (v, g, d) with
  | none => simp
  | some id =>
    obtain ⟨row, hrow, -, rfl⟩ := (h.cached.fileIds _ _).mp hl
    have hpos := h.keyed.fileIds.pos row hrow
    simp only [Option.getD_some, reduceCtorEq, iff_false]
    omega

/-- A cached version with the name is the row with the name. -/
theorem Cached.mem_versions (h : Cached db c) {ver : ModelVersion} :
    ver ∈ c.versions ↔ ∃ row ∈ db.versions, row.id = ver.id ∧ row.name = ver.name := by
  rw [h.versions.mem_iff, List.mem_map]
  refine exists_congr fun row => and_congr_right fun _ => ?_
  simp [VersionRow.toModel, ModelVersion.ext_iff]

theorem Cached.mem_groups (h : Cached db c) {gr : ModelGroup} :
    gr ∈ c.groups ↔ ∃ row ∈ db.fileGroups, row.id = gr.id ∧ row.name = gr.title := by
  rw [h.groups.mem_iff, List.mem_map]
  refine exists_congr fun row => and_congr_right fun _ => ?_
  simp [FileGroupRow.toModel, ModelGroup.ext_iff]

end Lookup

/-! ### One insertion into a table -/

section KeyedInsertion

variable {my : MySql} {db : Database} (h : Keyed db)
include h

theorem Keyed.insertVersion {name : Bytes} (hnew : ∀ row ∈ db.versions, row.name ≠ name) :
    Keyed ((Sql.insertVersion name).exec my db).2 :=
  { h with
    versionIds := h.versionIds.append (my.lastId_lt_nextId _ _ _)
    versionNames := nodup_map_append h.versionNames hnew }

theorem Keyed.insertGroup {name : Bytes} (hnew : ∀ row ∈ db.fileGroups, row.name ≠ name) :
    Keyed ((Sql.insertGroup name).exec my db).2 :=
  { h with
    groupIds := h.groupIds.append (my.lastId_lt_nextId _ _ _)
    groupNames := nodup_map_append h.groupNames hnew }

theorem Keyed.insertDefineFile {path name : Bytes} {parent : ℤ}
    (hnew : ∀ row ∈ db.defineFiles, row.filepath ≠ path) :
    Keyed ((Sql.insertDefineFile path name parent).exec my db).2 :=
  { h with
    defineFileIds := h.defineFileIds.append (my.lastId_lt_nextId _ _ _)
    filepaths := nodup_map_append h.filepaths hnew }

theorem Keyed.insertFile {v g d parent : ℤ} (hnew : ∀ row ∈ db.links, row.key ≠ (v, g, d)) :
    Keyed ((Sql.insertFile v g d parent).exec my db).2 :=
  have hlinks := links_insertFile my db v g d parent
  { h with
    fileIds := hlinks ▸ h.fileIds.append (my.lastId_lt_nextId _ _ _)
    fileKeys := hlinks ▸ nodup_map_append h.fileKeys hnew }

/-- The counters play no part in `Keyed`. -/
theorem Keyed.updateAmount (my : MySql) (amount id : ℤ) :
    Keyed ((Sql.updateAmountOfChildren amount id).exec my db).2 :=
  have hlinks := links_updateAmount my db amount id
  { h with
    fileIds := hlinks ▸ h.fileIds
    fileKeys := hlinks ▸ h.fileKeys }

end KeyedInsertion

/-! ### One insertion into a table and its cache -/

section Insertion

variable {my : MySql} {w : World} (h : Synced w)
include h

theorem Synced.insertVersion {name : Bytes} (hnew : ∀ ver ∈ w.caches.versions, ver.name ≠ name) :
    Synced ⟨((Sql.insertVersion name).exec my w.db).2,
      { w.caches with
        versions :=
          w.caches.versions ++ [⟨((Sql.insertVersion name).exec my w.db).1, name⟩] }⟩ := by
  have hfresh : ∀ row ∈ w.db.versions, row.name ≠ name := fun row hrow =>
    hnew ⟨row.id, row.name⟩ (h.cached.mem_versions.mpr ⟨row, hrow, rfl, rfl⟩)
  refine ⟨h.keyed.insertVersion hfresh, { h.cached with versions := ?_ }⟩
  rw [Sql.exec, List.map_append]
  exact h.cached.versions.append (List.Perm.refl _)

theorem Synced.insertGroup {title : Bytes} (hnew : ∀ gr ∈ w.caches.groups, gr.title ≠ title) :
    Synced ⟨((Sql.insertGroup title).exec my w.db).2,
      { w.caches with
        groups := w.caches.groups ++ [⟨((Sql.insertGroup title).exec my w.db).1, title⟩] }⟩ := by
  have hfresh : ∀ row ∈ w.db.fileGroups, row.name ≠ title := fun row hrow =>
    hnew ⟨row.id, row.name⟩ (h.cached.mem_groups.mpr ⟨row, hrow, rfl, rfl⟩)
  refine ⟨h.keyed.insertGroup hfresh, { h.cached with groups := ?_ }⟩
  rw [Sql.exec, List.map_append]
  exact h.cached.groups.append (List.Perm.refl _)

theorem Synced.insertDefineFile {path name : Bytes} {parent : ℤ}
    (hnew : w.caches.defineFileIds path = none) :
    Synced ⟨((Sql.insertDefineFile path name parent).exec my w.db).2,
      { w.caches with
        defineFileIds := Function.update w.caches.defineFileIds path
          (some ((Sql.insertDefineFile path name parent).exec my w.db).1) }⟩ := by
  have hfresh := h.cached.defineFileIds_eq_none.mp hnew
  refine ⟨h.keyed.insertDefineFile hfresh, { h.cached with defineFileIds := fun p id => ?_ }⟩
  simp only [Sql.exec, List.mem_append, List.mem_singleton, or_and_right, exists_or,
    exists_eq_left]
  -- the new path is cached with the id of its new row, the others as they were
  by_cases hp : p = path
  · subst hp
    rw [Function.update_self]
    have hnone : ¬ ∃ row ∈ w.db.defineFiles, row.filepath = p ∧ row.id = id :=
      fun ⟨row, hrow, hpath, _⟩ => hfresh row hrow hpath
    simp [hnone]
  · rw [Function.update_of_ne hp, h.cached.defineFileIds]
    simp [Ne.symm hp]

/-- After the `INSERT` into `webdiff_files` only the cache entry is missing. -/
theorem Synced.insertFile {v g d parent : ℤ} (hnew : w.caches.fileIds.lookup (v, g, d) = none) :
    Synced ⟨((Sql.insertFile v g d parent).exec my w.db).2,
      { w.caches with
        fileIds := w.caches.fileIds.add v g d
          ((Sql.insertFile v g d parent).exec my w.db).1 }⟩ := by
  have hfresh := h.cached.fileIds_eq_none.mp hnew
  refine ⟨h.keyed.insertFile hfresh, { h.cached with fileIds := fun key id => ?_ }⟩
  rw [ModelCacheFilesVersion.lookup_add, links_insertFile]
  simp only [List.mem_append, List.mem_singleton, or_and_right, exists_or, exists_eq_left]
  by_cases hk : key = (v, g, d)
  · subst hk
    have hnone : ¬ ∃ row ∈ w.db.links, row.key = (v, g, d) ∧ row.id = id :=
      fun ⟨row, hrow, hkey, _⟩ => hfresh row hrow hkey
    rw [if_pos rfl, or_iff_right hnone]
    simp [FileLink.key, Sql.exec]
  · rw [if_neg hk, h.cached.fileIds]
    simp [FileLink.key, Ne.symm hk]

omit h in
/-- Without the cache entry the new row is a row the caches do not know. -/
theorem not_synced_insertFile {v g d parent : ℤ}
    (hnew : w.caches.fileIds.lookup (v, g, d) = none) :
    ¬ Synced ⟨((Sql.insertFile v g d parent).exec my w.db).2, w.caches⟩ := by
  intro hs
  refine hs.cached.fileIds_eq_none.mp hnew
    ⟨my.nextId .files FileLink.id w.db.links, v, g, d, parent⟩ ?_ rfl
  simp [links_insertFile]

/-- The counters play no part in `Synced`. -/
theorem Synced.updateAmount (amount id : ℤ) :
    Synced ⟨((Sql.updateAmountOfChildren amount id).exec my w.db).2, w.caches⟩ := by
  have hlinks := links_updateAmount my w.db amount id
  exact ⟨h.keyed.updateAmount my amount id,
    { h.cached with fileIds := fun key id' => by rw [hlinks]; exact h.cached.fileIds key id' }⟩

end Insertion

end WebDiff
