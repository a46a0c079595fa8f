import WebDiff.Model.Listing
import WebDiff.Storage.History
import WebDiff.Storage.Rows

/-!
# What the page shows

An entry of the page shows a path (`Entry.Shows`) when it has the file id of the path, the names on
the way to it for titles, and the number of its children for a counter. Below an entry that shows a
path stand the entries of the paths with one more component (`shows_getFiles`,
`exists_mem_getFiles`). The page never expands an entry whose counter is `0`; as the counters are
right, nothing stands below such an entry (`expandEntry_eq`).
-/

namespace WebDiff

open Table

/-- The titles under which a path is shown: the file names are read as C strings. -/
def shownTitles (p : Path) : List Bytes :=
  p.map fun c => cString c.val

/-- The entry shows the path in the version and group. -/
structure Entry.Shows (db : Database) (v g : ℤ) (x : Entry) (p : Path) : Prop where
  file : db.HasFile v g p x.file.id
  titles : x.titles = shownTitles p
  amountOfChildren : x.file.amountOfChildren = db.childCount x.file.id

/-! ### One call of `getFiles` -/

theorem mem_getFiles {my : MySql} {db : Database} {v g f : ℤ} {file : ModelFile} :
    file ∈ getFiles my db v g f ↔ ∃ t ∈ db.filesJoin, t.1.versionId = v ∧ t.1.fileGroupId = g ∧
      t.1.parentId = f ∧ listedFile t = file := by
  unfold getFiles
  simp only [List.mem_map, (my.orderBy_perm _ _).mem_iff, List.mem_filter, decide_eq_true_eq]
  constructor
  · rintro ⟨t, ⟨ht, hv, hg, hf⟩, rfl⟩
    exact ⟨t, ht, hv, hg, hf, rfl⟩
  · rintro ⟨t, ht, hv, hg, hf, rfl⟩
    exact ⟨t, ⟨ht, hv, hg, hf⟩, rfl⟩

section Forest

variable {db : Database}

theorem Database.fileId_root (db : Database) (v g : ℤ) : db.FileId v g [] 0 := Or.inl ⟨rfl, rfl⟩

variable (h : PathForest db)
include h

/-- A file id belongs to one path of one version and group. -/
theorem PathForest.fileId_path {v g v' g' : ℤ} {p q : Path} {f : ℤ} (hp : db.HasFile v g p f)
    (hq : db.FileId v' g' q f) : v = v' ∧ g = g' ∧ p = q := by
  rcases hq with ⟨-, rfl⟩ | hq
  · exact absurd (h.hasFile_pos hp) (lt_irrefl _)
  · exact h.hasFile_path hp hq

/-- In one version and group this holds of the root as well. -/
theorem PathForest.fileId_path_of_fileId {v g : ℤ} {p q : Path} {f : ℤ} (hp : db.FileId v g p f)
    (hq : db.FileId v g q f) : p = q := by
  rcases hp with ⟨rfl, rfl⟩ | hp
  · rcases hq with ⟨rfl, -⟩ | hq
    · rfl
    · exact absurd (h.hasFile_pos hq) (lt_irrefl _)
  · exact (h.fileId_path hp hq).2.2

/-- The counter of a row is the number of rows `getFiles` lists below it. -/
theorem PathForest.length_getFiles (my : MySql) {v g : ℤ} {p : Path} {f : ℤ}
    (hf : db.HasFile v g p f) : (getFiles my db v g f).length = db.childCount f := by
  have hjoin : (getFiles my db v g f).length = db.links.countP fun l =>
      l.versionId = v ∧ l.fileGroupId = g ∧ l.parentId = f := by
    rw [← h.filesJoin_perm.countP_eq, List.countP_map, List.countP_eq_length_filter, getFiles,
      List.length_map, (my.orderBy_perm _ _).length_eq]
    rfl
  rw [hjoin]
  refine List.countP_congr fun l hl => ?_
  simp only [decide_eq_true_eq]
  refine ⟨fun ⟨_, _, hparent⟩ => hparent, fun hparent => ?_⟩
  -- a child lies in the version and group of its parent
  obtain ⟨q, c, hs⟩ := h.files l hl
  have hq : db.FileId l.versionId l.fileGroupId q f := hparent ▸ hs.parentId
  obtain ⟨hv, hg, -⟩ := h.fileId_path hf hq
  exact ⟨hv.symm, hg.symm, hparent⟩

/-- What is listed below a path are the paths with one more component. -/
theorem PathForest.shows_getFiles (my : MySql) {v g : ℤ} {p : Path} {f : ℤ}
    (hf : db.FileId v g p f) :
    ∀ x ∈ showFiles (shownTitles p) (getFiles my db v g f), ∃ c, x.Shows db v g (p ++ [c]) := by
  intro x hx
  obtain ⟨file, hfile, rfl⟩ := List.mem_map.mp hx
  obtain ⟨t, ht, rfl, rfl, hparent, rfl⟩ := mem_getFiles.mp hfile
  obtain ⟨q, c, hrow⟩ := h.rowAt ht
  obtain rfl : p = q := h.fileId_path_of_fileId hf (hparent ▸ hrow.parent)
  refine ⟨c, hrow.file, ?_, h.counted t.1 (mem_filesJoin.mp ht).1⟩
  simp [shownTitles, listedFile, hrow.filename]

/-- Every path with one more component is listed. -/
theorem PathForest.exists_mem_getFiles (my : MySql) {v g : ℤ} {p : Path} {c : Component} {f k : ℤ}
    (hf : db.FileId v g p f) (hk : db.HasFile v g (p ++ [c]) k) :
    ∃ x ∈ showFiles (shownTitles p) (getFiles my db v g f), x.file.id = k := by
  obtain ⟨t, ht, rfl, rfl, rfl⟩ := hk.exists_row
  obtain ⟨q, e, hrow⟩ := h.rowAt ht
  obtain ⟨rfl, -⟩ := List.append_singleton_inj.mp (h.hasFile_path hrow.file hk).2.2
  have hparent : t.1.parentId = f := by
    rcases hrow.parent with ⟨rfl, hzero⟩ | hparent
    · rcases hf with ⟨-, rfl⟩ | hf
      · exact hzero
      · exact absurd rfl (h.ne_nil_of_hasFile hf)
    · rcases hf with ⟨rfl, -⟩ | hf
      · exact absurd rfl (h.ne_nil_of_hasFile hparent)
      · exact h.hasFile_id hparent hf
  exact ⟨_, List.mem_map_of_mem (mem_getFiles.mpr ⟨t, ht, rfl, rfl, hparent, rfl⟩), rfl⟩

/-- The page expands nothing less than it could. -/
theorem PathForest.expandEntry_eq (my : MySql) {v g : ℤ} {p : Path} {x : Entry}
    (hx : x.Shows db v g p) :
    expandEntry my db v g x = showFiles (shownTitles p) (getFiles my db v g x.file.id) := by
  unfold expandEntry
  rw [hx.titles]
  split
  · rfl
  · next hzero =>
    have hlength := h.length_getFiles my hx.file
    rw [hx.amountOfChildren] at hzero
    have hnil : getFiles my db v g x.file.id = [] :=
      List.length_eq_zero_iff.mp (by omega)
    rw [hnil]
    rfl

theorem PathForest.shows_expandEntry (my : MySql) {v g : ℤ} {p : Path} {x : Entry}
    (hx : x.Shows db v g p) :
    ∀ y ∈ expandEntry my db v g x, ∃ c, y.Shows db v g (p ++ [c]) := by
  rw [h.expandEntry_eq my hx]
  exact h.shows_getFiles my (Or.inr hx.file)

/-- Siblings are different rows. -/
theorem PathForest.nodup_getFiles (my : MySql) (v g f : ℤ) :
    ((getFiles my db v g f).map ModelFile.id).Nodup := by
  have hperm := (my.orderBy_perm (filesLe my) (db.filesJoin.filter fun t =>
    t.1.versionId = v ∧ t.1.fileGroupId = g ∧ t.1.parentId = f)).map fun t => t.1.id
  unfold getFiles
  rw [List.map_map]
  exact hperm.nodup_iff.mpr (h.nodup_filesJoin.sublist (List.filter_sublist.map _))

end Forest

/-! ### `getGroups` -/

section Groups

variable {db : Database}

theorem mem_filesOfVersion {v : ℤ} {t : FileRow × FileGroupRow} :
    t ∈ db.filesOfVersion v ↔
      t.1 ∈ db.files ∧ t.2 ∈ db.fileGroups ∧ t.2.id = t.1.fileGroupId ∧ t.1.versionId = v := by
  obtain ⟨t0, t1⟩ := t
  simp only [Database.filesOfVersion, List.mem_filter, List.mem_flatMap, List.mem_map,
    decide_eq_true_eq, Prod.mk.injEq]
  constructor
  · rintro ⟨⟨_, hfile, _, ⟨hgroup, hid⟩, rfl, rfl⟩, hv⟩
    exact ⟨hfile, hgroup, hid, hv⟩
  · rintro ⟨hfile, hgroup, hid, hv⟩
    exact ⟨⟨t0, hfile, t1, ⟨hgroup, hid⟩, rfl, rfl⟩, hv⟩

variable (h : PathForest db)
include h

/-- The join with the groups loses no row of a group that has one, and repeats none. -/
theorem PathForest.filesOfVersion_perm (v : ℤ) {g : ℤ} (hg : ∃ row ∈ db.fileGroups, row.id = g) :
    (((db.filesOfVersion v).filter fun t => t.1.fileGroupId = g).map fun t => t.1.toFileLink).Perm
      (db.links.filter fun l => l.versionId = v ∧ l.fileGroupId = g) := by
  have hsub := join_sublist db.files
    (fun t0 => db.fileGroups.filter fun t1 => t1.id = t0.fileGroupId)
    fun t0 _ => length_filter_le h.keyed.groupIds.nodup_map t0.fileGroupId
  -- a group id has one row at most, so the join repeats no file
  have hnodup : ((db.filesOfVersion v).map fun t => t.1.toFileLink).Nodup := by
    have hmap := h.keyed.fileIds.nodup.sublist (hsub.map FileRow.toFileLink)
    rw [List.map_map] at hmap
    exact hmap.sublist (List.filter_sublist.map _)
  refine (List.perm_ext_iff_of_nodup (hnodup.sublist (List.filter_sublist.map _))
    (h.keyed.fileIds.nodup.filter _)).mpr fun l => ?_
  simp only [List.mem_map, List.mem_filter, decide_eq_true_eq, mem_filesOfVersion]
  constructor
  · rintro ⟨t, ⟨⟨hfile, -, -, hv⟩, hgroup⟩, rfl⟩
    exact ⟨List.mem_map_of_mem hfile, hv, hgroup⟩
  · rintro ⟨hl, hv, hgroup⟩
    obtain ⟨t0, hfile, rfl⟩ := List.mem_map.mp hl
    obtain ⟨row, hrow, hid⟩ := hg
    exact ⟨(t0, row), ⟨⟨hfile, hrow, hid.trans hgroup.symm, hv⟩, hgroup⟩, rfl⟩

/-- `getGroups` reports the number of file rows of a group. -/
theorem PathForest.amountOfFiles_getGroups (my : MySql) {v : ℤ} {G : ModelGroupForVersion}
    (hG : G ∈ getGroups my db v) :
    G.amountOfFiles = (db.links.filter fun l => l.versionId = v ∧ l.fileGroupId = G.id).length := by
  obtain ⟨g, hg, hfind⟩ := List.mem_filterMap.mp hG
  obtain ⟨t, ht, rfl⟩ := Option.map_eq_some_iff.mp hfind
  have hgroup : t.1.fileGroupId = g := by simpa using List.find?_some ht
  obtain ⟨-, hrow, hid, -⟩ := mem_filesOfVersion.mp (List.mem_of_find?_eq_some ht)
  rw [← (h.filesOfVersion_perm v ⟨t.2, hrow, hid.trans hgroup⟩).length_eq, List.length_map,
    ← List.countP_eq_length_filter]

omit h in
/-- Every group with a file row in the version is reported. -/
theorem exists_mem_getGroups (my : MySql) {v g : ℤ} {l : FileLink} (hl : l ∈ db.links)
    (hv : l.versionId = v) (hg : l.fileGroupId = g) (hgroup : ∃ row ∈ db.fileGroups, row.id = g) :
    ∃ G ∈ getGroups my db v, G.id = g := by
  obtain ⟨t0, hfile, rfl⟩ := List.mem_map.mp hl
  obtain ⟨row, hrow, hid⟩ := hgroup
  have hmem : (t0, row) ∈ db.filesOfVersion v :=
    mem_filesOfVersion.mpr ⟨hfile, hrow, hid.trans hg.symm, hv⟩
  have hsome : ((db.filesOfVersion v).find? fun t => t.1.fileGroupId = g).isSome :=
    List.find?_isSome.mpr ⟨_, hmem, by simpa using hg⟩
  obtain ⟨t, ht⟩ := Option.isSome_iff_exists.mp hsome
  refine ⟨_, List.mem_filterMap.mpr ⟨g, ?_, by rw [ht]; rfl⟩, rfl⟩
  rw [MySql.mem_scan, List.mem_dedup]
  exact List.mem_map.mpr ⟨_, hmem, hg⟩

end Groups

end WebDiff
