import WebDiff.Storage.PathForest

/-!
# Joined rows as paths

Every row of the join of `webdiff_files` and `webdiff_define_files` stands for one path of its
version and group (`RowAt`), and every file row is in the join once.
-/

namespace WebDiff

open Table

/-- The joined row stands for the path `p ++ [c]`. -/
structure RowAt (db : Database) (t : FileRow × DefineFileRow) (p : Path) (c : Component) :
    Prop where
  filepath : t.2.filepath = renderPath (p ++ [c])
  filename : t.2.filename = c.val
  define : db.HasDefine (p ++ [c]) t.1.defineFileId
  file : db.HasFile t.1.versionId t.1.fileGroupId (p ++ [c]) t.1.id
  parent : db.FileId t.1.versionId t.1.fileGroupId p t.1.parentId

section Join

variable {db : Database}

theorem mem_filesJoin {t : FileRow × DefineFileRow} :
    t ∈ db.filesJoin ↔ t.1 ∈ db.files ∧ t.2 ∈ db.defineFiles ∧ t.2.id = t.1.defineFileId := by
  obtain ⟨t0, t1⟩ := t
  simp only [Database.filesJoin, List.mem_flatMap, List.mem_map, List.mem_filter,
    decide_eq_true_eq, Prod.mk.injEq]
  constructor
  · rintro ⟨_, hfile, _, ⟨hdefine, hid⟩, rfl, rfl⟩
    exact ⟨hfile, hdefine, hid⟩
  · rintro ⟨hfile, hdefine, hid⟩
    exact ⟨t0, hfile, t1, ⟨hdefine, hid⟩, rfl, rfl⟩

theorem mem_links_of_mem_filesJoin {t : FileRow × DefineFileRow} (ht : t ∈ db.filesJoin) :
    t.1.toFileLink ∈ db.links :=
  List.mem_map_of_mem (mem_filesJoin.mp ht).1

/-- `id` is a primary key of the tables the diff joins. Nothing is said of the other columns. -/
structure PrimaryKeys (db : Database) : Prop where
  defineFiles : (db.defineFiles.map DefineFileRow.id).Nodup
  fileGroups : (db.fileGroups.map FileGroupRow.id).Nodup
  files : (db.files.map fun t0 => t0.id).Nodup

/-- The join repeats no file row. -/
theorem PrimaryKeys.nodup_filesJoin (h : PrimaryKeys db) :
    (db.filesJoin.map fun t => t.1.id).Nodup := by
  have hsub := join_sublist db.files
    (fun t0 => db.defineFiles.filter fun t1 => t1.id = t0.defineFileId)
    fun t0 _ => length_filter_le h.defineFiles t0.defineFileId
  have hmap := h.files.sublist (hsub.map fun t0 => t0.id)
  rwa [List.map_map] at hmap

variable (h : PathForest db)
include h

theorem PathForest.primaryKeys : PrimaryKeys db where
  defineFiles := h.keyed.defineFileIds.nodup_map
  fileGroups := h.keyed.groupIds.nodup_map
  files := by
    have hlinks := h.keyed.fileIds.nodup_map
    rwa [Database.links, List.map_map] at hlinks

theorem PathForest.nodup_filesJoin : (db.filesJoin.map fun t => t.1.id).Nodup :=
  h.primaryKeys.nodup_filesJoin

theorem PathForest.rowAt {t : FileRow × DefineFileRow} (ht : t ∈ db.filesJoin) :
    ∃ p c, RowAt db t p c := by
  obtain ⟨-, hdefine, hid⟩ := mem_filesJoin.mp ht
  have hl := mem_links_of_mem_filesJoin ht
  obtain ⟨p, c, hs⟩ := h.files _ hl
  obtain ⟨q, e, hr⟩ := h.defineFiles _ hdefine
  have hpath : q ++ [e] = p ++ [c] :=
    h.hasDefine_path ⟨t.2, hdefine, hr.filepath, hid⟩ hs.defineFileId
  obtain ⟨rfl, rfl⟩ := List.append_singleton_inj.mp hpath
  exact ⟨q, e, hr.filepath, hr.filename, hs.defineFileId,
    ⟨_, hl, rfl, rfl, hs.defineFileId, rfl⟩, hs.parentId⟩

omit h in
/-- Every file id of a path belongs to a joined row. -/
theorem Database.HasFile.exists_row {v g : ℤ} {p : Path} {f : ℤ} (hf : db.HasFile v g p f) :
    ∃ t ∈ db.filesJoin, t.1.versionId = v ∧ t.1.fileGroupId = g ∧ t.1.id = f := by
  obtain ⟨l, hl, rfl, rfl, ⟨row, hrow, -, hid⟩, rfl⟩ := hf
  obtain ⟨t0, ht0, rfl⟩ := List.mem_map.mp hl
  exact ⟨(t0, row), mem_filesJoin.mpr ⟨ht0, hrow, hid⟩, rfl, rfl, rfl⟩

/-- The join has every file row. -/
theorem PathForest.filesJoin_perm :
    (db.filesJoin.map fun t => t.1.toFileLink).Perm db.links := by
  have hnodup : (db.filesJoin.map fun t => t.1.toFileLink).Nodup := by
    have hids := h.nodup_filesJoin
    have hmap : (db.filesJoin.map fun t => t.1.id)
        = (db.filesJoin.map fun t => t.1.toFileLink).map FileLink.id := by
      rw [List.map_map]
      rfl
    rw [hmap] at hids
    exact hids.of_map
  refine (List.perm_ext_iff_of_nodup hnodup h.keyed.fileIds.nodup).mpr fun l => ?_
  constructor
  · intro hl
    obtain ⟨t, ht, rfl⟩ := List.mem_map.mp hl
    exact mem_links_of_mem_filesJoin ht
  · intro hl
    obtain ⟨p, c, hs⟩ := h.files l hl
    obtain ⟨row, hrow, -, hid⟩ := hs.defineFileId
    obtain ⟨t0, ht0, rfl⟩ := List.mem_map.mp hl
    exact List.mem_map.mpr ⟨(t0, row), mem_filesJoin.mpr ⟨ht0, hrow, hid⟩, rfl⟩

theorem PathForest.rowAt_unique {t : FileRow × DefineFileRow} {p q : Path} {c e : Component}
    (hp : RowAt db t p c) (hq : RowAt db t q e) : p = q ∧ c = e := by
  have hpath := (h.hasFile_path hp.file hq.file).2.2
  exact List.append_singleton_inj.mp hpath

end Join

end WebDiff
