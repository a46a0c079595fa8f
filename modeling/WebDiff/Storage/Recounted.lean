import WebDiff.Storage.Uploads

/-!
# Tables between an `INSERT` and its `UPDATE`

Between the statements of `insertFile` the counter of a parent is behind, so the tables are a forest
of paths but for the counters. That is what `PathForest db.recounted` says, where `recounted` puts
every counter right: paths, ids and links are those of the tables (`paths_recounted`), and the
`INSERT` statements alone store what the functions around them store.
-/

namespace WebDiff

open Program Table

/-- The tables with every counter put right. -/
def Database.recounted (db : Database) : Database :=
  { db with files := db.links.map fun l => ⟨l, db.childCount l.id⟩ }

section Recounted

variable (db : Database)

@[simp] theorem links_recounted : db.recounted.links = db.links := by
  unfold Database.links Database.recounted
  rw [List.map_map]
  exact List.map_id _

@[simp] theorem childCount_recounted (f : ℤ) : db.recounted.childCount f = db.childCount f := by
  unfold Database.childCount
  rw [links_recounted]

theorem counted_recounted : db.recounted.Counted := by
  intro row hrow
  obtain ⟨l, hl, rfl⟩ := List.mem_map.mp hrow
  rw [childCount_recounted]

theorem grows_recounted : db.Grows db.recounted :=
  ⟨fun _ h => h, fun _ h => h, fun _ h => h, fun _ h => by rwa [links_recounted]⟩

theorem recounted_grows : db.recounted.Grows db :=
  ⟨fun _ h => h, fun _ h => h, fun _ h => h, fun _ h => by rwa [links_recounted] at h⟩

variable {db}

/-- Paths do not depend on the counters. -/
theorem paths_congr {db' : Database} (hdefine : db'.defineFiles = db.defineFiles)
    (hlinks : db'.links = db.links) : db'.paths = db.paths := by
  unfold Database.paths Database.HasFile Database.HasDefine
  rw [hdefine, hlinks]

@[simp] theorem paths_recounted (db : Database) : db.recounted.paths = db.paths :=
  paths_congr rfl (links_recounted db)

/-- Neither do the keys. -/
theorem Keyed.congr {db' : Database} (h : Keyed db) (hversions : db'.versions = db.versions)
    (hgroups : db'.fileGroups = db.fileGroups) (hdefine : db'.defineFiles = db.defineFiles)
    (hlinks : db'.links = db.links) : Keyed db' where
  versionIds := hversions ▸ h.versionIds
  versionNames := hversions ▸ h.versionNames
  groupIds := hgroups ▸ h.groupIds
  groupNames := hgroups ▸ h.groupNames
  defineFileIds := hdefine ▸ h.defineFileIds
  filepaths := hdefine ▸ h.filepaths
  fileIds := hlinks ▸ h.fileIds
  fileKeys := hlinks ▸ h.fileKeys

/-- Tables are a forest of paths when they are one but for the counters and the counters are
right. -/
theorem pathForest_iff : PathForest db ↔ PathForest db.recounted ∧ db.Counted := by
  constructor
  · intro h
    have hkeyed : Keyed db.recounted := h.keyed.congr rfl rfl rfl (links_recounted db)
    exact ⟨h.of_links (grows_recounted db) hkeyed rfl (links_recounted db) (counted_recounted db),
      h.counted⟩
  · rintro ⟨h, hcounted⟩
    have hkeyed : Keyed db := h.keyed.congr rfl rfl rfl (links_recounted db).symm
    exact h.of_links (recounted_grows db) hkeyed rfl (links_recounted db).symm hcounted

/-! ### The statements of an upload -/

variable {my : MySql}

/-- The `UPDATE` changes nothing but a counter. -/
theorem recounted_updateAmount (amount id : ℤ) :
    ((Sql.updateAmountOfChildren amount id).exec my db).2.recounted = db.recounted := by
  have hlinks := links_updateAmount my db amount id
  unfold Database.recounted Database.childCount
  rw [hlinks]
  rfl

variable (my) (h : PathForest db.recounted)
include h

/-- The `INSERT` of a path. -/
theorem defines_recounted {p : Path} {c : Component} {d : ℤ} (hd : db.recounted.DefineId p d)
    (hnew : ∀ row ∈ db.defineFiles, row.filepath ≠ renderPath (p ++ [c])) :
    Defines db.recounted (p ++ [c])
        ((Sql.insertDefineFile (renderPath (p ++ [c])) c.val d).exec my db).2.recounted ∧
      ((Sql.insertDefineFile (renderPath (p ++ [c])) c.val d).exec my db).2.recounted.HasDefine
        (p ++ [c]) (my.nextId .defineFiles DefineFileRow.id db.defineFiles) :=
  defines_insertDefineFile my h hd hnew

/-- The `INSERT` of a file. -/
theorem stores_recounted {v g d f : ℤ} {p : Path} {c : Component}
    (hd : db.recounted.HasDefine (p ++ [c]) d) (hf : db.recounted.FileId v g p f)
    (hnew : ∀ row ∈ db.links, row.key ≠ (v, g, d)) :
    Stores db.recounted (.single v g {p ++ [c]})
        ((Sql.insertFile v g d f).exec my db).2.recounted ∧
      ((Sql.insertFile v g d f).exec my db).2.recounted.HasFile v g (p ++ [c])
        (my.nextId .files FileLink.id db.links) := by
  rw [← links_recounted] at hnew
  obtain ⟨hstores, hfile⟩ := stores_insertFile my h hd hf hnew
  -- the tables after all three statements have the same links
  have hlinks : ((Sql.insertFile v g d f).exec my db).2.recounted.links
      = (run (Database.step my) (WebDiff.insertFile v g d f) db.recounted).2.links := by
    rw [links_recounted, links_insertFile, links_run_insertFile, links_recounted]
  have hgrows : (run (Database.step my) (WebDiff.insertFile v g d f) db.recounted).2.Grows
      ((Sql.insertFile v g d f).exec my db).2.recounted :=
    ⟨fun _ hx => hx, fun _ hx => hx, fun _ hx => hx, fun _ hx => hlinks ▸ hx⟩
  refine ⟨⟨?_, hstores.grows.trans hgrows, ?_, hstores.defined⟩, ?_⟩
  · exact hstores.forest.of_links hgrows (hstores.forest.keyed.congr rfl rfl rfl hlinks) rfl hlinks
      (counted_recounted _)
  · rw [← hstores.paths]
    exact paths_congr rfl hlinks
  · have hid : (run (Database.step my) (WebDiff.insertFile v g d f) db.recounted).1
        = my.nextId .files FileLink.id db.links := by
      rw [run_insertFile, links_recounted]
    exact hid ▸ hfile.mono hgrows

end Recounted

end WebDiff
