import WebDiff.Diff.Groups
import WebDiff.Diff.Rows
import WebDiff.Storage.Renaming

/-!
# The diff under a renaming

`getDiff` compares ids and nothing else about them, so the diff of renamed tables is the renamed
diff (`sameDiff_of_renames`). The rows of a `SELECT` may come in any order, so the entries of a
group are the same up to their order.
-/

namespace WebDiff

open Table Matching

namespace Renaming

variable (ρ : Renaming)

/-- An entry under other ids. -/
def entry (e : ModelDiffFile) : ModelDiffFile :=
  { e with
    id := ρ.file e.id
    parentFileId := ρ.file e.parentFileId
    defineFileId := ρ.define e.defineFileId }

/-- A joined row under other ids. -/
def joined (t : FileRow × DefineFileRow) : FileRow × DefineFileRow :=
  (ρ.fileRow t.1, ρ.defineRow t.2)

end Renaming

/-- The two results are equal up to the renaming: the same groups, each with the same title and, in
some order, the same entries, and comments under the same define ids, of which there are none. -/
structure SameDiff (ρ : Renaming) (d d' : ModelDiffGroups) : Prop where
  groupIds : (d.mapGroups.keys.map ρ.group).Perm d'.mapGroups.keys
  groups : ∀ g G, d.mapGroups[g]? = some G → ∃ G', d'.mapGroups[ρ.group g]? = some G' ∧
    G'.group = ⟨ρ.group G.group.id, G.group.title⟩ ∧
    (G.fileDiffs.map ρ.entry).Perm G'.fileDiffs
  defineIds : (d.mapComments.keys.map ρ.define).Perm d'.mapComments.keys
  comments : ∀ i cs, d.mapComments[i]? = some cs → cs = [] ∧ d'.mapComments[ρ.define i]? = some []

/-! ### Rows -/

section Rows

variable {ρ : Renaming} {db db' : Database} (hρ : ρ.Renames db db') (h : Referential db)
include hρ h

omit hρ in
/-- The ids a file row refers to occur in the other tables. -/
theorem referenced_ids {row : FileRow} (hrow : row ∈ db.files) :
    (∃ ver ∈ db.versions, ver.id = row.versionId) ∧
      (∃ gr ∈ db.fileGroups, gr.id = row.fileGroupId) ∧
      ∃ drow ∈ db.defineFiles, drow.id = row.defineFileId := by
  have hl : row.toFileLink ∈ db.links := List.mem_map_of_mem hrow
  obtain ⟨p, c, hs⟩ := h.forest.files _ hl
  have hp : p ++ [c] ∈ db.paths row.versionId row.fileGroupId :=
    ⟨row.id, _, hl, rfl, rfl, hs.defineFileId, rfl⟩
  obtain ⟨version, hv⟩ := h.version hp
  obtain ⟨group, hg⟩ := h.group hp
  obtain ⟨drow, hdrow, -, hid⟩ := hs.defineFileId
  exact ⟨⟨_, hv, rfl⟩, ⟨_, hg, rfl⟩, drow, hdrow, hid⟩

omit h in
theorem mem_files_of_renames {row' : FileRow} :
    row' ∈ db'.files ↔ ∃ row ∈ db.files, ρ.fileRow row = row' := by
  rw [← hρ.files.mem_iff, List.mem_map]

omit h in
theorem mem_fileGroups_of_renames {g : ℤ} (hg : ∃ row ∈ db.fileGroups, row.id = g) :
    ∃ row ∈ db'.fileGroups, row.id = ρ.group g := by
  obtain ⟨row, hrow, rfl⟩ := hg
  exact ⟨ρ.groupRow row, hρ.fileGroups.mem_iff.mp (List.mem_map_of_mem hrow), rfl⟩

/-- The joined rows are renamings of each other. -/
theorem mem_filesJoin_of_renames {t' : FileRow × DefineFileRow} :
    t' ∈ db'.filesJoin ↔ ∃ t ∈ db.filesJoin, ρ.joined t = t' := by
  rw [mem_filesJoin, mem_files_of_renames hρ, ← hρ.defineFiles.mem_iff, List.mem_map]
  constructor
  · rintro ⟨⟨row, hrow, hfile⟩, ⟨drow, hdrow, hdefine⟩, hid⟩
    obtain ⟨-, -, hown⟩ := referenced_ids h hrow
    rw [← hfile, ← hdefine] at hid
    have hsame : drow.id = row.defineFileId :=
      hρ.define_inj (Or.inr ⟨drow, hdrow, rfl⟩) (Or.inr hown) hid
    exact ⟨(row, drow), mem_filesJoin.mpr ⟨hrow, hdrow, hsame⟩, Prod.ext hfile hdefine⟩
  · rintro ⟨t, ht, rfl⟩
    obtain ⟨hfile, hdefine, hid⟩ := mem_filesJoin.mp ht
    exact ⟨⟨_, hfile, rfl⟩, ⟨_, hdefine, rfl⟩, congrArg ρ.define hid⟩

/-- No two joined rows get the same file id. -/
theorem joined_inj {t s : FileRow × DefineFileRow} (ht : t ∈ db.filesJoin) (hs : s ∈ db.filesJoin)
    (heq : ρ.file t.1.id = ρ.file s.1.id) : t = s := by
  have hid := hρ.file_inj (Or.inr ⟨_, mem_links_of_mem_filesJoin ht, rfl⟩)
    (Or.inr ⟨_, mem_links_of_mem_filesJoin hs, rfl⟩) heq
  exact List.inj_on_of_nodup_map h.forest.nodup_filesJoin ht hs hid

/-- The subquery of `getDiffFiles` has the same answer. -/
theorem differs_joined {left right : ℤ} (hleft : ∃ row ∈ db.versions, row.id = left)
    (hright : ∃ row ∈ db.versions, row.id = right) {t : FileRow × DefineFileRow}
    (ht : t ∈ db.filesJoin) :
    db'.differs (ρ.version left) (ρ.version right) (ρ.joined t).1 = true ↔
      db.differs left right t.1 = true := by
  obtain ⟨hfile, -, -⟩ := mem_filesJoin.mp ht
  obtain ⟨hv, hg, hd⟩ := referenced_ids h hfile
  unfold Database.differs
  simp only [Bool.and_eq_true, decide_eq_true_eq, Bool.not_eq_true', ← Bool.not_eq_true,
    List.contains_iff_mem, List.mem_map, List.mem_filter, mem_files_of_renames hρ]
  refine and_congr ⟨fun heq => hρ.version_inj hv hleft heq, fun heq => congrArg ρ.version heq⟩
    (not_congr ?_)
  constructor
  · rintro ⟨_, ⟨⟨row, hrow, rfl⟩, hversion, hgroup⟩, hdefine⟩
    obtain ⟨hv', hg', hd'⟩ := referenced_ids h hrow
    exact ⟨row, ⟨hrow, hρ.version_inj hv' hright hversion, hρ.group_inj hg hg' hgroup⟩,
      hρ.define_inj (Or.inr hd') (Or.inr hd) hdefine⟩
  · rintro ⟨row, ⟨hrow, hversion, hgroup⟩, hdefine⟩
    exact ⟨_, ⟨⟨row, hrow, rfl⟩, congrArg ρ.version hversion, congrArg ρ.group hgroup⟩,
      congrArg ρ.define hdefine⟩

/-! ### Entries -/

section Entries

variable (h' : Referential db') (my my' : MySql) {left right g : ℤ}
  (hleft : ∃ row ∈ db.versions, row.id = left) (hright : ∃ row ∈ db.versions, row.id = right)
  (hg : ∃ row ∈ db.fileGroups, row.id = g)
include h' hleft hright hg

/-- The rows that differ in one direction. -/
theorem diffRows_perm : ((diffRows my db left right g).map ρ.joined).Perm
    (diffRows my' db' (ρ.version left) (ρ.version right) (ρ.group g)) := by
  refine map_perm_of_mem_iff (h.forest.nodup_diffRows my left right g).of_map
    (h'.forest.nodup_diffRows my' _ _ _).of_map (fun t ht s hs heq => ?_) fun t' => ?_
  · exact joined_inj hρ h (mem_diffRows.mp ht).1 (mem_diffRows.mp hs).1
      (congrArg (fun t : FileRow × DefineFileRow => t.1.id) heq)
  · rw [mem_diffRows, mem_filesJoin_of_renames hρ h]
    constructor
    · rintro ⟨⟨t, ht, rfl⟩, hgroup, -, hdiffers⟩
      obtain ⟨-, hg', -⟩ := referenced_ids h (mem_filesJoin.mp ht).1
      exact ⟨t, mem_diffRows.mpr ⟨ht, hρ.group_inj hg' hg hgroup, hg,
        (differs_joined hρ h hleft hright ht).mp hdiffers⟩, rfl⟩
    · rintro ⟨t, ht, rfl⟩
      obtain ⟨hjoin, hgroup, -, hdiffers⟩ := mem_diffRows.mp ht
      exact ⟨⟨t, hjoin, rfl⟩, congrArg ρ.group hgroup, mem_fileGroups_of_renames hρ hg,
        (differs_joined hρ h hleft hright hjoin).mpr hdiffers⟩

/-- The entries that differ. -/
theorem differing_perm : ((differing my db left right g).map ρ.entry).Perm
    (differing my' db' (ρ.version left) (ρ.version right) (ρ.group g)) := by
  have hside : ∀ (state : DiffState) {ts ts' : List (FileRow × DefineFileRow)},
      (ts.map ρ.joined).Perm ts' →
        ((ts.map (diffFile state)).map ρ.entry).Perm (ts'.map (diffFile state)) := by
    intro state ts ts' hperm
    have hmap := hperm.map (diffFile state)
    rw [List.map_map] at hmap ⊢
    exact hmap
  unfold differing
  rw [List.map_append]
  exact (hside .missing (diffRows_perm hρ h h' my my' hleft hright hg)).append
    (hside .new (diffRows_perm hρ h h' my my' hright hleft hg))

omit hρ h' hleft hright hg in
/-- An entry that differs is made of a joined row, whose ids have partners. -/
theorem mem_domain_of_differing {e : ModelDiffFile} (he : e ∈ differing my db left right g) :
    e.id ∈ {f | f = 0 ∨ ∃ l ∈ db.links, l.id = f} ∧
      e.parentFileId ∈ {f | f = 0 ∨ ∃ l ∈ db.links, l.id = f} := by
  obtain ⟨t, ht, hmade⟩ := exists_row_of_mem_differing he
  have hl := mem_links_of_mem_filesJoin ht
  rw [hmade]
  exact ⟨Or.inr ⟨_, hl, rfl⟩, h.forest.closed _ hl⟩

/-- The ids and the parent ids of the entries that differ, before and after the renaming. -/
theorem mem_differing_ids_iff {t : FileRow × DefineFileRow} (ht : t ∈ db.filesJoin) :
    (ρ.file t.1.id ∈ (differing my' db' (ρ.version left) (ρ.version right)
        (ρ.group g)).map ModelDiffFile.parentFileId ↔
      t.1.id ∈ (differing my db left right g).map ModelDiffFile.parentFileId) ∧
    (ρ.file t.1.id ∈ (differing my' db' (ρ.version left) (ρ.version right)
        (ρ.group g)).map ModelDiffFile.id ↔
      t.1.id ∈ (differing my db left right g).map ModelDiffFile.id) := by
  have hdiffering := differing_perm hρ h h' my my' hleft hright hg
  have hid : t.1.id ∈ {f | f = 0 ∨ ∃ l ∈ db.links, l.id = f} :=
    Or.inr ⟨_, mem_links_of_mem_filesJoin ht, rfl⟩
  rw [← (hdiffering.map _).mem_iff, ← (hdiffering.map _).mem_iff, List.map_map, List.map_map]
  simp only [List.mem_map, Function.comp_apply]
  refine ⟨exists_congr fun e => and_congr_right fun he => ?_,
    exists_congr fun e => and_congr_right fun he => ?_⟩
  · have hparent := (mem_domain_of_differing h my he).2
    exact ⟨fun heq => hρ.file_inj hparent hid heq, fun heq => congrArg ρ.file heq⟩
  · have hown := (mem_domain_of_differing h my he).1
    exact ⟨fun heq => hρ.file_inj hown hid heq, fun heq => congrArg ρ.file heq⟩

/-- **The entries of a group** are the same up to the renaming and their order. -/
theorem entries_perm : (((getDiff my db left right).entries g).map ρ.entry).Perm
    ((getDiff my' db' (ρ.version left) (ρ.version right)).entries (ρ.group g)) := by
  obtain ⟨ts, hE, hnodup, hts⟩ := withParents_getDiff my h.forest.nodup_filesJoin left right g
  obtain ⟨ts', hE', hnodup', hts'⟩ := withParents_getDiff my' h'.forest.nodup_filesJoin
    (ρ.version left) (ρ.version right) (ρ.group g)
  have hparents : ∀ t ∈ db.filesJoin, _ := fun t ht =>
    mem_differing_ids_iff hρ h h' my my' hleft hright hg ht
  -- the rows that are added are renamings of each other
  have hadded : (ts.map ρ.joined).Perm ts' := by
    refine map_perm_of_mem_iff hnodup.of_map hnodup'.of_map (fun t ht s hs heq => ?_) fun t' => ?_
    · exact joined_inj hρ h ((hts t).mp ht).1 ((hts s).mp hs).1
        (congrArg (fun t : FileRow × DefineFileRow => t.1.id) heq)
    · rw [hts', mem_filesJoin_of_renames hρ h]
      have hpos : ∀ t ∈ db.filesJoin, t.1.id ≠ 0 := fun t ht =>
        ne_of_gt (h.forest.keyed.fileIds.pos _ (mem_links_of_mem_filesJoin ht))
      have hpos' : ∀ t ∈ db.filesJoin, ρ.file t.1.id ≠ 0 := fun t ht =>
        ne_of_gt (h'.forest.keyed.fileIds.pos _ (mem_links_of_mem_filesJoin
          ((mem_filesJoin_of_renames hρ h).mpr ⟨t, ht, rfl⟩)))
      constructor
      · rintro ⟨⟨t, ht, rfl⟩, hparent, -, hnew⟩
        exact ⟨t, (hts t).mpr ⟨ht, (hparents t ht).1.mp hparent, hpos t ht,
          fun hold => hnew ((hparents t ht).2.mpr hold)⟩, rfl⟩
      · rintro ⟨t, ht, rfl⟩
        obtain ⟨hjoin, hparent, -, hnew⟩ := (hts t).mp ht
        exact ⟨⟨t, hjoin, rfl⟩, (hparents t hjoin).1.mpr hparent, hpos' t hjoin,
          fun hold => hnew ((hparents t hjoin).2.mp hold)⟩
  have hmap := hadded.map (diffFile .none)
  rw [List.map_map] at hmap
  rw [hE, hE', List.map_append, List.map_map]
  exact (differing_perm hρ h h' my my' hleft hright hg).append hmap

end Entries

/-! ### The result -/

omit hρ h in
theorem getComments_eq_nil (my : MySql) (hcomments : db.comments = []) (i : ℤ) :
    getComments my db i = [] := by
  unfold getComments
  rw [hcomments, List.filter_nil, (my.orderBy_perm _ []).eq_nil, List.map_nil]

section Result

variable (h' : Referential db') (my my' : MySql) {left right : ℤ}
  (hleft : ∃ row ∈ db.versions, row.id = left) (hright : ∃ row ∈ db.versions, row.id = right)
include h' hleft hright

/-- The groups of the renamed diff are those of the diff. -/
theorem entries_ne_nil_iff {g' : ℤ} :
    (getDiff my' db' (ρ.version left) (ρ.version right)).entries g' ≠ [] ↔
      ∃ g, (getDiff my db left right).entries g ≠ [] ∧ ρ.group g = g' := by
  constructor
  · intro hne
    obtain ⟨row', hrow', rfl⟩ := (titled_getDiff my' db' _ _).exists_row hne
    obtain ⟨row, hrow, rfl⟩ := List.mem_map.mp (hρ.fileGroups.mem_iff.mpr hrow')
    refine ⟨row.id, fun hnil => hne ?_, rfl⟩
    have hperm := entries_perm hρ h h' my my' hleft hright ⟨row, hrow, rfl⟩
    rw [hnil] at hperm
    exact hperm.nil_eq.symm
  · rintro ⟨g, hne, rfl⟩ hnil
    have hgroup := (titled_getDiff my db left right).exists_row hne
    have hperm := entries_perm hρ h h' my my' hleft hright hgroup
    rw [hnil] at hperm
    exact hne (List.map_eq_nil_iff.mp hperm.eq_nil)

/-- The define ids of the renamed diff are those of the diff. -/
theorem defineIds_iff {i' : ℤ} :
    (∃ g', ∃ e ∈ (getDiff my' db' (ρ.version left) (ρ.version right)).entries g',
        e.defineFileId = i') ↔
      ∃ i, (∃ g, ∃ e ∈ (getDiff my db left right).entries g, e.defineFileId = i) ∧
        ρ.define i = i' := by
  constructor
  · rintro ⟨g', e', he', rfl⟩
    obtain ⟨g, hne, rfl⟩ :=
      (entries_ne_nil_iff hρ h h' my my' hleft hright).mp (List.ne_nil_of_mem he')
    have hgroup := (titled_getDiff my db left right).exists_row hne
    have hperm := entries_perm hρ h h' my my' hleft hright hgroup
    obtain ⟨e, he, rfl⟩ := List.mem_map.mp (hperm.mem_iff.mpr he')
    exact ⟨e.defineFileId, ⟨g, e, he, rfl⟩, rfl⟩
  · rintro ⟨i, ⟨g, e, he, rfl⟩, rfl⟩
    have hgroup := (titled_getDiff my db left right).exists_row (List.ne_nil_of_mem he)
    have hperm := entries_perm hρ h h' my my' hleft hright hgroup
    exact ⟨ρ.group g, ρ.entry e, hperm.mem_iff.mp (List.mem_map_of_mem he), rfl⟩

/-- **The diff of renamed tables** without comments is the renamed diff. -/
theorem sameDiff_of_renames (hcomments : db.comments = []) (hcomments' : db'.comments = []) :
    SameDiff ρ (getDiff my db left right)
      (getDiff my' db' (ρ.version left) (ρ.version right)) := by
  have htitled := titled_getDiff my db left right
  have htitled' := titled_getDiff my' db' (ρ.version left) (ρ.version right)
  have hfiled := mapComments_getDiff my h.forest.nodup_filesJoin left right
  have hfiled' := mapComments_getDiff my' h'.forest.nodup_filesJoin (ρ.version left)
    (ρ.version right)
  have hkey := mem_keys_mapComments_getDiff my h.forest.nodup_filesJoin left right
  have hkey' := mem_keys_mapComments_getDiff my' h'.forest.nodup_filesJoin (ρ.version left)
    (ρ.version right)
  refine ⟨?_, fun g G hG => ?_, ?_, fun i cs hcs => ?_⟩
  · refine map_perm_of_mem_iff Std.TreeMap.nodup_keys Std.TreeMap.nodup_keys
      (fun k hk l hl heq => ?_) fun k' => ?_
    · rw [htitled.mem_keys_iff] at hk hl
      exact hρ.group_inj (htitled.exists_row hk) (htitled.exists_row hl) heq
    · rw [htitled'.mem_keys_iff, entries_ne_nil_iff hρ h h' my my' hleft hright]
      simp only [htitled.mem_keys_iff]
  · obtain ⟨hne, row, hrow, rfl, hgroup⟩ := htitled g G hG
    have hentries := ModelDiffGroups.entries_of_mem hG
    have hperm := entries_perm hρ h h' my my' hleft hright ⟨row, hrow, rfl⟩
    rw [hentries] at hperm
    -- the group is in the other result, under the name of its row
    have hne' : (getDiff my' db' (ρ.version left) (ρ.version right)).entries (ρ.group row.id)
        ≠ [] := fun hnil => by
      rw [hnil] at hperm
      exact hne (List.map_eq_nil_iff.mp hperm.eq_nil)
    rw [← htitled'.mem_keys_iff, Std.TreeMap.mem_keys, Std.TreeMap.mem_iff_isSome_getElem?,
      Option.isSome_iff_exists] at hne'
    obtain ⟨G', hG'⟩ := hne'
    obtain ⟨-, row', hrow', hid, hgroup'⟩ := htitled' _ G' hG'
    obtain rfl := h'.forest.keyed.groupIds.eq_of_id_eq hrow'
      (hρ.fileGroups.mem_iff.mp (List.mem_map_of_mem hrow)) hid
    rw [ModelDiffGroups.entries_of_mem hG'] at hperm
    exact ⟨G', hG', by rw [hgroup', hgroup]; rfl, hperm⟩
  · refine map_perm_of_mem_iff Std.TreeMap.nodup_keys Std.TreeMap.nodup_keys
      (fun i hi j hj heq => ?_) fun i' => ?_
    · -- the define ids of entries belong to define rows
      have hdefine : ∀ i ∈ (getDiff my db left right).mapComments.keys,
          ∃ row ∈ db.defineFiles, row.id = i := by
        intro i hi
        obtain ⟨g, e, he, rfl⟩ := (hkey i).mp hi
        obtain ⟨t, ht, hmade⟩ := h.forest.exists_row_of_mem_entries he
        obtain ⟨-, hrow, hid⟩ := mem_filesJoin.mp ht
        exact ⟨t.2, hrow, by rw [hmade]; exact hid⟩
      exact hρ.define_inj (Or.inr (hdefine i hi)) (Or.inr (hdefine j hj)) heq
    · rw [hkey', defineIds_iff hρ h h' my my' hleft hright]
      simp only [hkey]
  · obtain ⟨hi, rfl⟩ := (hfiled i cs).mp hcs
    refine ⟨getComments_eq_nil my hcomments i,
      (hfiled' _ _).mpr ⟨?_, getComments_eq_nil my' hcomments' _⟩⟩
    exact (defineIds_iff hρ h h' my my' hleft hright).mpr ⟨i, hi, rfl⟩

end Result

end Rows

end WebDiff
