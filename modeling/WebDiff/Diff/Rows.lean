import WebDiff.Diff.Entries
import WebDiff.Storage.Rows

/-!
# The rows of the diff as paths

In tables that are a forest of paths the rows that differ between two versions are those of the
paths one of them has and the other has not (`mem_diffRows`, `PathForest.differs_iff`).
-/

namespace WebDiff

open Table

section Join

variable {db : Database}

theorem mem_groupsJoin {t : (FileRow × DefineFileRow) × FileGroupRow} :
    t ∈ db.groupsJoin ↔
      t.1 ∈ db.filesJoin ∧ t.2 ∈ db.fileGroups ∧ t.2.id = t.1.1.fileGroupId := by
  obtain ⟨t, t2⟩ := t
  simp only [Database.groupsJoin, List.mem_flatMap, List.mem_map, List.mem_filter,
    decide_eq_true_eq, Prod.mk.injEq]
  constructor
  · rintro ⟨_, ht, _, ⟨hgroup, hid⟩, rfl, rfl⟩
    exact ⟨ht, hgroup, hid⟩
  · rintro ⟨ht, hgroup, hid⟩
    exact ⟨t, ht, t2, ⟨hgroup, hid⟩, rfl, rfl⟩

theorem mem_diffRows {my : MySql} {left right groupId : ℤ} {t : FileRow × DefineFileRow} :
    t ∈ diffRows my db left right groupId ↔
      t ∈ db.filesJoin ∧ t.1.fileGroupId = groupId ∧ (∃ t2 ∈ db.fileGroups, t2.id = groupId) ∧
        db.differs left right t.1 = true := by
  simp only [diffRows, List.mem_map, List.mem_filter, MySql.mem_scan, mem_groupsJoin,
    decide_eq_true_eq]
  constructor
  · rintro ⟨⟨t, t2⟩, ⟨⟨⟨ht, hgroup, hid⟩, hdiffers⟩, rfl⟩, rfl⟩
    exact ⟨ht, rfl, ⟨t2, hgroup, hid⟩, hdiffers⟩
  · rintro ⟨ht, rfl, ⟨t2, hgroup, hid⟩, hdiffers⟩
    exact ⟨(t, t2), ⟨⟨⟨ht, hgroup, hid⟩, hdiffers⟩, rfl⟩, rfl⟩

/-- An entry that differs is made of a row of the join. -/
theorem exists_row_of_mem_differing {my : MySql} {left right groupId : ℤ} {e : ModelDiffFile}
    (he : e ∈ differing my db left right groupId) : ∃ t ∈ db.filesJoin, e = diffFile e.state t := by
  unfold differing at he
  rcases List.mem_append.mp he with he | he
  all_goals
    obtain ⟨t, ht, rfl⟩ := List.mem_map.mp he
    exact ⟨t, (mem_diffRows.mp ht).1, rfl⟩

/-- Every row is one of its version. -/
theorem versionId_of_mem_diffRows {my : MySql} {left right groupId : ℤ}
    {t : FileRow × DefineFileRow} (ht : t ∈ diffRows my db left right groupId) :
    t.1.versionId = left := by
  obtain ⟨-, -, -, hdiffers⟩ := mem_diffRows.mp ht
  unfold Database.differs at hdiffers
  exact of_decide_eq_true (Bool.and_eq_true_iff.mp hdiffers).1

theorem PrimaryKeys.nodup_diffRows (h : PrimaryKeys db) (my : MySql) (left right groupId : ℤ) :
    ((diffRows my db left right groupId).map fun t => t.1.id).Nodup := by
  have hsub := join_sublist db.filesJoin
    (fun t => db.fileGroups.filter fun t2 => t2.id = t.1.fileGroupId)
    fun t _ => length_filter_le h.fileGroups t.1.fileGroupId
  have hjoin : (db.groupsJoin.map fun t => t.1.1.id).Nodup := by
    have hmap := h.nodup_filesJoin.sublist (hsub.map fun t => t.1.id)
    rwa [List.map_map] at hmap
  have hscan := ((my.scan_perm (db.groupsJoin.filter fun t => db.differs left right t.1.1)).map
    fun t => t.1.1.id).nodup_iff.mpr (hjoin.sublist (List.filter_sublist.map _))
  unfold diffRows
  rw [List.map_map]
  exact hscan.sublist (List.filter_sublist.map _)

/-- The rows of a version do not differ from those of the same version. -/
theorem diffRows_self (my : MySql) (v groupId : ℤ) : diffRows my db v v groupId = [] := by
  refine List.eq_nil_iff_forall_not_mem.mpr fun t ht => ?_
  have hv := versionId_of_mem_diffRows ht
  obtain ⟨hjoin, -, -, hdiffers⟩ := mem_diffRows.mp ht
  have hmem : t.1.defineFileId ∈ (db.files.filter fun t10 =>
      t10.versionId = v ∧ t.1.fileGroupId = t10.fileGroupId).map fun t10 => t10.defineFileId := by
    refine List.mem_map_of_mem (List.mem_filter.mpr ⟨(mem_filesJoin.mp hjoin).1, ?_⟩)
    simp [hv]
  unfold Database.differs at hdiffers
  rw [List.contains_iff_mem.mpr hmem, Bool.not_true, Bool.and_false] at hdiffers
  cases hdiffers

/-- The two passes of the diff find different rows. -/
theorem disjoint_diffRows {my : MySql} {left right groupId : ℤ} {t : FileRow × DefineFileRow}
    (ht : t ∈ diffRows my db left right groupId) : t ∉ diffRows my db right left groupId := by
  intro ht'
  obtain rfl := (versionId_of_mem_diffRows ht).symm.trans (versionId_of_mem_diffRows ht')
  rw [diffRows_self] at ht
  exact List.not_mem_nil ht

variable (h : PathForest db)
include h

theorem PathForest.nodup_diffRows (my : MySql) (left right groupId : ℤ) :
    ((diffRows my db left right groupId).map fun t => t.1.id).Nodup :=
  h.primaryKeys.nodup_diffRows my left right groupId

/-- Every entry is made of a row of the join. -/
theorem PathForest.exists_row_of_mem_entries {my : MySql} {left right groupId : ℤ}
    {e : ModelDiffFile} (he : e ∈ (getDiff my db left right).entries groupId) :
    ∃ t ∈ db.filesJoin, e = diffFile e.state t := by
  obtain ⟨ts, hE, -, hts⟩ := withParents_getDiff my h.nodup_filesJoin left right groupId
  rw [hE] at he
  rcases List.mem_append.mp he with he | he
  · exact exists_row_of_mem_differing he
  · obtain ⟨t, ht, rfl⟩ := List.mem_map.mp he
    exact ⟨t, ((hts t).mp ht).1, rfl⟩

/-- The subquery of `getDiffFiles` asks whether the other version has the path. -/
theorem PathForest.differs_iff {t : FileRow × DefineFileRow} {p : Path} {c : Component}
    (hrow : RowAt db t p c) (left right : ℤ) :
    db.differs left right t.1 = true ↔
      t.1.versionId = left ∧ p ++ [c] ∉ db.paths right t.1.fileGroupId := by
  -- the subquery collects the define ids of the other version, and a path has one define id
  have hsub : t.1.defineFileId ∈ (db.files.filter fun t10 =>
        t10.versionId = right ∧ t.1.fileGroupId = t10.fileGroupId).map (fun t10 =>
        t10.defineFileId) ↔ p ++ [c] ∈ db.paths right t.1.fileGroupId := by
    simp only [List.mem_map, List.mem_filter, decide_eq_true_eq]
    constructor
    · rintro ⟨t10, ⟨hmem, hv, hg⟩, hid⟩
      exact ⟨t10.id, t10.toFileLink, List.mem_map_of_mem hmem, hv, hg.symm, hid ▸ hrow.define, rfl⟩
    · rintro ⟨_, l, hl, hv, hg, hdefine, -⟩
      obtain ⟨t10, hmem, rfl⟩ := List.mem_map.mp hl
      exact ⟨t10, ⟨hmem, hv, hg.symm⟩, h.hasDefine_id hdefine hrow.define⟩
  unfold Database.differs
  rw [Bool.and_eq_true, decide_eq_true_eq, Bool.not_eq_true', ← Bool.not_eq_true,
    List.contains_iff_mem, hsub]

end Join

end WebDiff
