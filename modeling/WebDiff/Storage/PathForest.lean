import WebDiff.Framework.Forest
import WebDiff.Storage.Tables

/-!
# The tables as a forest of paths

`PathForest` is the joint invariant of `webdiff_define_files` and `webdiff_files`. A define row
stands for one path and its parent for the path without the last component; a file row stands for
the path of its define row in its version and group, and its parent for the path above in the same
version and group; and the counter of a file row is the number of its children. The two ids
`addFile` carries from one component to the next are `DefineId` and `FileId` of the path read so
far, which is what keeps the two forests in step.

`Database.paths` reads off the tables which paths a version and a group have.
-/

namespace WebDiff

open Table

namespace Database

variable (db : Database)

/-- `d` is the id of the define row of the path. -/
def HasDefine (p : Path) (d : ℤ) : Prop :=
  ∃ row ∈ db.defineFiles, row.filepath = renderPath p ∧ row.id = d

/-- `f` is the id of the file row of the path in the version and group. -/
def HasFile (v g : ℤ) (p : Path) (f : ℤ) : Prop :=
  ∃ l ∈ db.links, l.versionId = v ∧ l.fileGroupId = g ∧ db.HasDefine p l.defineFileId ∧ l.id = f

/-- `d` is the id `addFile` carries for the path: `0` for the root. -/
def DefineId (p : Path) (d : ℤ) : Prop :=
  (p = [] ∧ d = 0) ∨ db.HasDefine p d

/-- `f` is the other id `addFile` carries for the path. -/
def FileId (v g : ℤ) (p : Path) (f : ℤ) : Prop :=
  (p = [] ∧ f = 0) ∨ db.HasFile v g p f

/-- The paths of a version and a group. -/
def paths (v g : ℤ) : Set Path :=
  {p | ∃ f, db.HasFile v g p f}

/-- The paths that have a define row. -/
def definedPaths : Set Path :=
  {p | ∃ d, db.HasDefine p d}

/-- The number of children of the file row `f`. -/
def childCount (f : ℤ) : ℕ :=
  db.links.countP fun l => l.parentId = f

/-- Every counter is right. -/
def Counted : Prop :=
  ∀ row ∈ db.files, row.amountOfChildren = db.childCount row.id

end Database

/-- The define row stands for the path `p ++ [c]`. -/
structure DefineFileRow.StandsFor (db : Database) (row : DefineFileRow) (p : Path)
    (c : Component) : Prop where
  filepath : row.filepath = renderPath (p ++ [c])
  filename : row.filename = c.val
  parentId_lt : row.parentId < row.id
  parentId : db.DefineId p row.parentId

/-- The file row stands for the path `p ++ [c]` in its version and group. -/
structure FileLink.StandsFor (db : Database) (l : FileLink) (p : Path) (c : Component) : Prop where
  defineFileId : db.HasDefine (p ++ [c]) l.defineFileId
  parentId_lt : l.parentId < l.id
  parentId : db.FileId l.versionId l.fileGroupId p l.parentId

/-- The tables hold a forest of paths. -/
structure PathForest (db : Database) : Prop where
  keyed : Keyed db
  defineFiles : ∀ row ∈ db.defineFiles, ∃ p c, row.StandsFor db p c
  files : ∀ l ∈ db.links, ∃ p c, l.StandsFor db p c
  counted : db.Counted

theorem PathForest.empty : PathForest Database.empty where
  keyed := Keyed.empty
  defineFiles := fun _ h => absurd h List.not_mem_nil
  files := fun _ h => absurd h List.not_mem_nil
  counted := fun _ h => absurd h List.not_mem_nil

/-! ### Paths and ids determine each other -/

section Unique

variable {db : Database} (h : PathForest db)
include h

theorem PathForest.hasDefine_pos {p : Path} {d : ℤ} (hd : db.HasDefine p d) : 0 < d := by
  obtain ⟨row, hrow, -, rfl⟩ := hd
  exact h.keyed.defineFileIds.pos row hrow

theorem PathForest.hasFile_pos {v g : ℤ} {p : Path} {f : ℤ} (hf : db.HasFile v g p f) : 0 < f := by
  obtain ⟨l, hl, -, -, -, rfl⟩ := hf
  exact h.keyed.fileIds.pos l hl

theorem PathForest.hasDefine_path {p q : Path} {d : ℤ} (hp : db.HasDefine p d)
    (hq : db.HasDefine q d) : p = q := by
  obtain ⟨row, hrow, hpath, rfl⟩ := hp
  obtain ⟨row', hrow', hpath', hid⟩ := hq
  obtain rfl := h.keyed.defineFileIds.eq_of_id_eq hrow hrow' hid.symm
  exact renderPath_injective (hpath.symm.trans hpath')

theorem PathForest.hasDefine_id {p : Path} {d d' : ℤ} (hd : db.HasDefine p d)
    (hd' : db.HasDefine p d') : d = d' := by
  obtain ⟨row, hrow, hpath, rfl⟩ := hd
  obtain ⟨row', hrow', hpath', rfl⟩ := hd'
  rw [List.inj_on_of_nodup_map h.keyed.filepaths hrow hrow' (hpath.trans hpath'.symm)]

/-- The root has no row. -/
theorem PathForest.not_hasDefine_nil {d : ℤ} : ¬ db.HasDefine [] d := by
  rintro ⟨row, hrow, hpath, -⟩
  obtain ⟨p, c, hstands⟩ := h.defineFiles row hrow
  have hnil : p ++ [c] = [] := renderPath_injective (hstands.filepath.symm.trans hpath)
  exact absurd hnil (List.append_ne_nil_of_right_ne_nil _ (List.cons_ne_nil _ _))

theorem PathForest.ne_nil_of_hasFile {v g : ℤ} {p : Path} {f : ℤ} (hf : db.HasFile v g p f) :
    p ≠ [] := by
  rintro rfl
  obtain ⟨l, -, -, -, hdefine, -⟩ := hf
  exact h.not_hasDefine_nil hdefine

theorem PathForest.hasFile_path {v g v' g' : ℤ} {p q : Path} {f : ℤ} (hp : db.HasFile v g p f)
    (hq : db.HasFile v' g' q f) : v = v' ∧ g = g' ∧ p = q := by
  obtain ⟨l, hl, rfl, rfl, hdefine, rfl⟩ := hp
  obtain ⟨l', hl', rfl, rfl, hdefine', hid⟩ := hq
  obtain rfl := h.keyed.fileIds.eq_of_id_eq hl hl' hid.symm
  exact ⟨rfl, rfl, h.hasDefine_path hdefine hdefine'⟩

theorem PathForest.hasFile_id {v g : ℤ} {p : Path} {f f' : ℤ} (hf : db.HasFile v g p f)
    (hf' : db.HasFile v g p f') : f = f' := by
  obtain ⟨l, hl, rfl, rfl, hdefine, rfl⟩ := hf
  obtain ⟨l', hl', hv, hg, hdefine', rfl⟩ := hf'
  have hkey : l.key = l'.key := by
    unfold FileLink.key
    rw [hv, hg, h.hasDefine_id hdefine hdefine']
  rw [List.inj_on_of_nodup_map h.keyed.fileKeys hl hl' hkey]

theorem PathForest.defineId_nonneg {p : Path} {d : ℤ} (hd : db.DefineId p d) : 0 ≤ d := by
  rcases hd with ⟨-, rfl⟩ | hd
  · exact le_refl _
  · exact le_of_lt (h.hasDefine_pos hd)

theorem PathForest.fileId_nonneg {v g : ℤ} {p : Path} {f : ℤ} (hf : db.FileId v g p f) : 0 ≤ f := by
  rcases hf with ⟨-, rfl⟩ | hf
  · exact le_refl _
  · exact le_of_lt (h.hasFile_pos hf)

end Unique

/-! ### Growing tables -/

/-- Rows are only added, apart from counters. -/
structure Database.Grows (db db' : Database) : Prop where
  versions : db.versions ⊆ db'.versions
  fileGroups : db.fileGroups ⊆ db'.fileGroups
  defineFiles : db.defineFiles ⊆ db'.defineFiles
  links : db.links ⊆ db'.links

theorem Database.Grows.refl (db : Database) : db.Grows db :=
  ⟨fun _ h => h, fun _ h => h, fun _ h => h, fun _ h => h⟩

section Grows

variable {db db' db'' : Database}

theorem Database.Grows.trans (h : db.Grows db') (h' : db'.Grows db'') : db.Grows db'' :=
  ⟨fun _ hx => h'.versions (h.versions hx), fun _ hx => h'.fileGroups (h.fileGroups hx),
    fun _ hx => h'.defineFiles (h.defineFiles hx), fun _ hx => h'.links (h.links hx)⟩

variable (h : db.Grows db')
include h

theorem Database.HasDefine.mono {p : Path} {d : ℤ} (hd : db.HasDefine p d) : db'.HasDefine p d := by
  obtain ⟨row, hrow, hd⟩ := hd
  exact ⟨row, h.defineFiles hrow, hd⟩

theorem Database.HasFile.mono {v g : ℤ} {p : Path} {f : ℤ} (hf : db.HasFile v g p f) :
    db'.HasFile v g p f := by
  obtain ⟨l, hl, hv, hg, hdefine, hid⟩ := hf
  exact ⟨l, h.links hl, hv, hg, hdefine.mono h, hid⟩

theorem Database.DefineId.mono {p : Path} {d : ℤ} (hd : db.DefineId p d) : db'.DefineId p d :=
  hd.imp_right fun hd => hd.mono h

theorem Database.FileId.mono {v g : ℤ} {p : Path} {f : ℤ} (hf : db.FileId v g p f) :
    db'.FileId v g p f :=
  hf.imp_right fun hf => hf.mono h

theorem DefineFileRow.StandsFor.mono {row : DefineFileRow} {p : Path} {c : Component}
    (hrow : row.StandsFor db p c) : row.StandsFor db' p c :=
  { hrow with parentId := hrow.parentId.mono h }

theorem FileLink.StandsFor.mono {l : FileLink} {p : Path} {c : Component}
    (hl : l.StandsFor db p c) : l.StandsFor db' p c :=
  { hl with
    defineFileId := hl.defineFileId.mono h
    parentId := hl.parentId.mono h }

/-- Where both tables are forests, a row keeps its path. -/
theorem PathForest.hasFile_of_grows (hf : PathForest db) (hf' : PathForest db') {l : FileLink}
    (hl : l ∈ db.links) {p : Path} (hdefine : db'.HasDefine p l.defineFileId) :
    db.HasDefine p l.defineFileId := by
  obtain ⟨q, c, hstands⟩ := hf.files l hl
  have hq : p = q ++ [c] := hf'.hasDefine_path hdefine (hstands.defineFileId.mono h)
  exact hq ▸ hstands.defineFileId

end Grows

/-! ### The insertions -/

theorem grows_insertDefineFile (my : MySql) (db : Database) (path name : Bytes) (parent : ℤ) :
    db.Grows ((Sql.insertDefineFile path name parent).exec my db).2 :=
  ⟨fun _ hx => hx, fun _ hx => hx, fun _ hx => List.mem_append_left _ hx, fun _ hx => hx⟩

section Insertions

variable {my : MySql} {db : Database} (h : PathForest db)
include h

/-- Only the links, their define rows and the counters play a part in the forest. -/
theorem PathForest.of_links {db' : Database} (hgrows : db.Grows db') (hkeyed : Keyed db')
    (hdefine : db'.defineFiles = db.defineFiles) (hlinks : db'.links = db.links)
    (hcounted : db'.Counted) : PathForest db' := by
  refine ⟨hkeyed, fun row hrow => ?_, fun l hl => ?_, hcounted⟩
  · obtain ⟨p, c, hstands⟩ := h.defineFiles row (hdefine ▸ hrow)
    exact ⟨p, c, hstands.mono hgrows⟩
  · obtain ⟨p, c, hstands⟩ := h.files l (hlinks ▸ hl)
    exact ⟨p, c, hstands.mono hgrows⟩

/-- The other tables play no part in the forest. -/
theorem PathForest.of_same_paths {db' : Database} (hgrows : db.Grows db') (hkeyed : Keyed db')
    (hdefine : db'.defineFiles = db.defineFiles) (hfiles : db'.files = db.files) :
    PathForest db' := by
  have hlinks : db'.links = db.links := congrArg (List.map FileRow.toFileLink) hfiles
  refine h.of_links hgrows hkeyed hdefine hlinks fun row hrow => ?_
  unfold Database.childCount
  rw [hlinks]
  exact h.counted row (hfiles ▸ hrow)

theorem PathForest.insertVersion {name : Bytes} (hnew : ∀ row ∈ db.versions, row.name ≠ name) :
    PathForest ((Sql.insertVersion name).exec my db).2 :=
  h.of_same_paths ⟨fun _ hx => List.mem_append_left _ hx, fun _ hx => hx, fun _ hx => hx,
    fun _ hx => hx⟩ (h.keyed.insertVersion hnew) rfl rfl

theorem PathForest.insertGroup {name : Bytes} (hnew : ∀ row ∈ db.fileGroups, row.name ≠ name) :
    PathForest ((Sql.insertGroup name).exec my db).2 :=
  h.of_same_paths ⟨fun _ hx => hx, fun _ hx => List.mem_append_left _ hx, fun _ hx => hx,
    fun _ hx => hx⟩ (h.keyed.insertGroup hnew) rfl rfl

/-- A define row for a new path below a path with the id `d`. -/
theorem PathForest.insertDefineFile (my : MySql) {p : Path} {c : Component} {d : ℤ}
    (hd : db.DefineId p d)
    (hnew : ∀ row ∈ db.defineFiles, row.filepath ≠ renderPath (p ++ [c])) :
    PathForest ((Sql.insertDefineFile (renderPath (p ++ [c])) c.val d).exec my db).2 := by
  have hgrows := grows_insertDefineFile my db (renderPath (p ++ [c])) c.val d
  refine ⟨h.keyed.insertDefineFile hnew, fun row hrow => ?_, fun l hl => ?_, h.counted⟩
  · rcases List.mem_append.mp hrow with hrow | hrow
    · obtain ⟨q, e, hstands⟩ := h.defineFiles row hrow
      exact ⟨q, e, hstands.mono hgrows⟩
    · obtain rfl := List.mem_singleton.mp hrow
      refine ⟨p, c, rfl, rfl, ?_, hd.mono hgrows⟩
      -- the parent is older: its id is `0` or that of a row
      have hlast := my.lastId_lt_nextId .defineFiles DefineFileRow.id db.defineFiles
      rcases hd with ⟨-, rfl⟩ | ⟨parent, hparent, -, rfl⟩
      · exact lt_of_le_of_lt h.keyed.defineFileIds.lastId_nonneg hlast
      · exact lt_of_le_of_lt (h.keyed.defineFileIds.le_lastId hparent) hlast
  · obtain ⟨q, e, hstands⟩ := h.files l hl
    exact ⟨q, e, hstands.mono hgrows⟩

end Insertions

/-! ### A file row and the counter of its parent -/

section Counters

variable (my : MySql) (db : Database)

theorem childCount_insertFile (v g d f x : ℤ) :
    ((Sql.insertFile v g d f).exec my db).2.childCount x
      = db.childCount x + if f = x then 1 else 0 := by
  unfold Database.childCount
  rw [links_insertFile, List.countP_append, List.countP_singleton]
  simp only [decide_eq_true_eq]

variable {my db}

/-- No row names the next id as its parent. -/
theorem childCount_nextId (my : MySql) (hids : Increasing FileLink.id db.links)
    (hlt : ∀ l ∈ db.links, l.parentId < l.id) :
    db.childCount (my.nextId .files FileLink.id db.links) = 0 := by
  refine List.countP_eq_zero.mpr fun l hl => ?_
  have hne : ¬ l.parentId = my.nextId .files FileLink.id db.links :=
    ne_of_lt ((hlt l hl).trans (lt_of_le_of_lt (hids.le_lastId hl) (my.lastId_lt_nextId _ _ _)))
  simpa using hne

/-- The `INSERT` leaves every counter right but the one of the parent. -/
theorem counted_insertFile (my : MySql) (hids : Increasing FileLink.id db.links)
    (hlt : ∀ l ∈ db.links, l.parentId < l.id) (hc : db.Counted) (v g d f : ℤ) :
    ∀ row ∈ ((Sql.insertFile v g d f).exec my db).2.files, row.id ≠ f →
      row.amountOfChildren = ((Sql.insertFile v g d f).exec my db).2.childCount row.id := by
  intro row hrow hne
  rw [childCount_insertFile, if_neg (Ne.symm hne), Nat.add_zero]
  rcases List.mem_append.mp hrow with hrow | hrow
  · exact hc row hrow
  · obtain rfl := List.mem_singleton.mp hrow
    have hzero := childCount_nextId my hids hlt
    exact (congrArg Nat.cast hzero).symm

/-- The `UPDATE` with the count of the children corrects the counter of one row. -/
theorem counted_updateAmount (my : MySql) {f : ℤ}
    (h : ∀ row ∈ db.files, row.id ≠ f → row.amountOfChildren = db.childCount row.id) :
    ((Sql.updateAmountOfChildren (db.childCount f) f).exec my db).2.Counted := by
  intro row hrow
  obtain ⟨old, hold, rfl⟩ := List.mem_map.mp hrow
  unfold Database.childCount
  rw [links_updateAmount, FileRow.setAmount]
  split
  · next hid =>
    rw [hid]
  · next hid => exact h old hold hid

variable (my db)

/-- The tables after the three statements of `insertFile`. -/
theorem run_insertFile (v g d f : ℤ) :
    Program.run (Database.step my) (insertFile v g d f) db
      = (my.nextId .files FileLink.id db.links,
          ((Sql.updateAmountOfChildren (((Sql.insertFile v g d f).exec my db).2.childCount f)
            f).exec my ((Sql.insertFile v g d f).exec my db).2).2) := rfl

/-- The links after `insertFile`. -/
theorem links_run_insertFile (v g d f : ℤ) :
    (Program.run (Database.step my) (insertFile v g d f) db).2.links
      = db.links ++ [⟨my.nextId .files FileLink.id db.links, v, g, d, f⟩] := by
  rw [run_insertFile, links_updateAmount, links_insertFile]

theorem grows_run_insertFile (v g d f : ℤ) :
    db.Grows (Program.run (Database.step my) (insertFile v g d f) db).2 := by
  refine ⟨fun _ hx => hx, fun _ hx => hx, fun _ hx => hx, fun l hl => ?_⟩
  rw [links_run_insertFile]
  exact List.mem_append_left _ hl

variable {my db}

/-- A file row for a path that is new in the version and group, below the row `f` of the path
above. -/
theorem PathForest.insertFile (my : MySql) (h : PathForest db) {v g d f : ℤ} {p : Path}
    {c : Component} (hd : db.HasDefine (p ++ [c]) d) (hf : db.FileId v g p f)
    (hnew : ∀ row ∈ db.links, row.key ≠ (v, g, d)) :
    PathForest (Program.run (Database.step my) (WebDiff.insertFile v g d f) db).2 := by
  have hgrows := grows_run_insertFile my db v g d f
  have hle : f ≤ lastId FileLink.id db.links := by
    rcases hf with ⟨-, rfl⟩ | ⟨l, hl, -, -, -, rfl⟩
    · exact h.keyed.fileIds.lastId_nonneg
    · exact h.keyed.fileIds.le_lastId hl
  have hlt : ∀ l ∈ db.links, l.parentId < l.id := fun l hl =>
    have ⟨_, _, hstands⟩ := h.files l hl
    hstands.parentId_lt
  -- the `UPDATE` changes a counter only, so the links are those after the `INSERT`
  have hkeyed : Keyed ((Sql.insertFile v g d f).exec my db).2 := h.keyed.insertFile hnew
  have hcounted := counted_insertFile my h.keyed.fileIds hlt h.counted v g d f
  rw [run_insertFile] at hgrows ⊢
  refine ⟨hkeyed.updateAmount my _ _, fun row hrow => ?_, fun l hl => ?_,
    counted_updateAmount my hcounted⟩
  · obtain ⟨q, e, hstands⟩ := h.defineFiles row hrow
    exact ⟨q, e, hstands.mono hgrows⟩
  · rw [links_updateAmount, links_insertFile] at hl
    rcases List.mem_append.mp hl with hl | hl
    · obtain ⟨q, e, hstands⟩ := h.files l hl
      exact ⟨q, e, hstands.mono hgrows⟩
    · obtain rfl := List.mem_singleton.mp hl
      exact ⟨p, c, hd.mono hgrows, lt_of_le_of_lt hle (my.lastId_lt_nextId _ _ _), hf.mono hgrows⟩

end Counters

end WebDiff
