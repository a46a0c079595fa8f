import WebDiff.Diff.Rows
import WebDiff.Storage.History

/-!
# When the diff is a tree

The entries with an empty state are the parents of the rows that differ, and nothing above them
(`mem_parents_iff`). So the entries of a group are closed under parents exactly when every directory
above such a parent is itself the parent of a row that differs (`ParentsDiffer`), and this is the
condition under which the page can draw them as a tree (`completeTree_iff`).
-/

namespace WebDiff

/-- `v` is one of the two versions of the diff and `w` the other. -/
def Side (left right v w : ℤ) : Prop :=
  (v = left ∧ w = right) ∨ (v = right ∧ w = left)

theorem Side.unique {left right v w w' : ℤ} (h : Side left right v w) (h' : Side left right v w') :
    w = w' := by
  unfold Side at h h'
  omega

theorem Side.same {left right v w v' w' : ℤ} (h : Side left right v w)
    (h' : Side left right v' w') : w' = v ∨ w' = w := by
  unfold Side at h h'
  omega

/-- The path is in the version `v` and not in the other one. -/
def PathDiffers (P : PathStore) (left right g v : ℤ) (p : Path) : Prop :=
  ∃ w, Side left right v w ∧ p ∈ P v g \ P w g

/-- The path is in both versions, and directly below it is a path that only `v` has. -/
def HasDifferingChild (P : PathStore) (left right g v : ℤ) (p : Path) : Prop :=
  ∃ w, Side left right v w ∧ p ∈ P w g ∧ ∃ x, p ++ [x] ∈ P v g \ P w g

/-- The rows of a group stand for their paths, whichever version they belong to. -/
structure GroupRow (db : Database) (g : ℤ) (t : FileRow × DefineFileRow) (p : Path)
    (c : Component) : Prop extends RowAt db t p c where
  join : t ∈ db.filesJoin
  group : t.1.fileGroupId = g

section Rows

variable {db : Database} (h : PathForest db) (my : MySql) {left right g : ℤ}
include h

/-- The differing rows of a group are those of the differing paths. -/
theorem mem_diffRows_iff (hgroup : ∃ row ∈ db.fileGroups, row.id = g)
    {t : FileRow × DefineFileRow} {p : Path} {c : Component} (hrow : GroupRow db g t p c) :
    (∃ w, Side left right t.1.versionId w ∧ t ∈ diffRows my db t.1.versionId w g) ↔
      PathDiffers db.paths left right g t.1.versionId (p ++ [c]) := by
  have hmem : p ++ [c] ∈ db.paths t.1.versionId g := ⟨_, hrow.group ▸ hrow.file⟩
  refine exists_congr fun w => and_congr_right fun _ => ?_
  rw [mem_diffRows, h.differs_iff hrow.toRowAt, hrow.group]
  exact ⟨fun ⟨_, _, _, _, hnot⟩ => ⟨hmem, hnot⟩,
    fun ⟨_, hnot⟩ => ⟨hrow.join, rfl, hgroup, rfl, hnot⟩⟩

omit h in
/-- An entry that differs is made of a differing row of one of the versions. -/
theorem mem_differing {e : ModelDiffFile} :
    e ∈ differing my db left right g ↔
      ∃ v w t, t ∈ diffRows my db v w g ∧ ((v = left ∧ w = right ∧ e = diffFile .missing t) ∨
        (v = right ∧ w = left ∧ e = diffFile .new t)) := by
  unfold differing
  rw [List.mem_append, List.mem_map, List.mem_map]
  constructor
  · rintro (⟨t, ht, rfl⟩ | ⟨t, ht, rfl⟩)
    · exact ⟨left, right, t, ht, Or.inl ⟨rfl, rfl, rfl⟩⟩
    · exact ⟨right, left, t, ht, Or.inr ⟨rfl, rfl, rfl⟩⟩
  · rintro ⟨v, w, t, ht, ⟨rfl, rfl, rfl⟩ | ⟨rfl, rfl, rfl⟩⟩
    · exact Or.inl ⟨t, ht, rfl⟩
    · exact Or.inr ⟨t, ht, rfl⟩

omit h in
/-- What the entries that differ say, read off their rows. -/
theorem mem_map_differing {K : Type} {key : ModelDiffFile → K} {key' : FileRow × DefineFileRow → K}
    (hkey : ∀ state t, key (diffFile state t) = key' t) {x : K} :
    x ∈ (differing my db left right g).map key ↔
      ∃ t w, Side left right t.1.versionId w ∧ t ∈ diffRows my db t.1.versionId w g ∧
        key' t = x := by
  rw [List.mem_map]
  constructor
  · rintro ⟨e, he, rfl⟩
    obtain ⟨v, w, t, ht, hside⟩ := (mem_differing my).mp he
    -- the rows of a version have that version
    obtain rfl := versionId_of_mem_diffRows ht
    rcases hside with ⟨hv, hw, rfl⟩ | ⟨hv, hw, rfl⟩
    · exact ⟨t, w, Or.inl ⟨hv, hw⟩, ht, (hkey _ t).symm⟩
    · exact ⟨t, w, Or.inr ⟨hv, hw⟩, ht, (hkey _ t).symm⟩
  · rintro ⟨t, w, ⟨hv, hw⟩ | ⟨hv, hw⟩, ht, rfl⟩
    · exact ⟨_, (mem_differing my).mpr ⟨_, _, t, ht, Or.inl ⟨hv, hw, rfl⟩⟩, hkey _ t⟩
    · exact ⟨_, (mem_differing my).mpr ⟨_, _, t, ht, Or.inr ⟨hv, hw, rfl⟩⟩, hkey _ t⟩

/-- A parent id of a differing row is the id of the row of the directory it lies in. -/
theorem mem_differing_parents (hgroup : ∃ row ∈ db.fileGroups, row.id = g)
    {t : FileRow × DefineFileRow} (ht : t ∈ db.filesJoin) :
    (t.1.id ∈ (differing my db left right g).map ModelDiffFile.parentFileId ∧ t.1.id ≠ 0) ↔
      ∃ p c, GroupRow db g t p c ∧ ∃ x, PathDiffers db.paths left right g t.1.versionId
        (p ++ [c] ++ [x]) := by
  obtain ⟨p, c, hrow⟩ := h.rowAt ht
  have hkey : ∀ state (s : FileRow × DefineFileRow),
      (diffFile state s).parentFileId = s.1.parentId := fun _ _ => rfl
  rw [mem_map_differing my hkey]
  constructor
  · rintro ⟨⟨s, w, hside, hs, hparent⟩, hzero⟩
    obtain ⟨hjoin, hg, -, -⟩ := mem_diffRows.mp hs
    obtain ⟨q, x, hsrow⟩ := h.rowAt hjoin
    have hsg : GroupRow db g s q x := { hsrow with join := hjoin, group := hg }
    have hdiff := (mem_diffRows_iff h my hgroup hsg).mp ⟨w, hside, hs⟩
    rcases hsrow.parent with ⟨-, h0⟩ | hfile
    · exact absurd (hparent.symm.trans h0) hzero
    · rw [hparent, hg] at hfile
      obtain ⟨hv, hgroup', rfl⟩ := h.hasFile_path hfile hrow.file
      exact ⟨p, c, { hrow with join := ht, group := hgroup'.symm }, x, hv ▸ hdiff⟩
  · rintro ⟨p, c, hrow, x, hdiff⟩
    obtain ⟨w, hside, ⟨f, hf⟩, hnot⟩ := hdiff
    -- the row of the path below, whose parent is `t`
    obtain ⟨s, hs, hv, hg, rfl⟩ := hf.exists_row
    obtain ⟨q, y, hsrow⟩ := h.rowAt hs
    have hpath : q ++ [y] = p ++ [c] ++ [x] := (h.hasFile_path hsrow.file hf).2.2
    obtain ⟨rfl, rfl⟩ := List.append_singleton_inj.mp hpath
    have hsg : GroupRow db g s (p ++ [c]) y := { hsrow with join := hs, group := hg }
    have hsdiff : PathDiffers db.paths left right g s.1.versionId (p ++ [c] ++ [y]) := by
      rw [hv]
      exact ⟨w, hside, ⟨_, hf⟩, hnot⟩
    obtain ⟨w', hside', hmem⟩ := (mem_diffRows_iff h my hgroup hsg).mpr hsdiff
    have hparent : s.1.parentId = t.1.id := by
      rcases hsrow.parent with ⟨hnil, -⟩ | hfile
      · exact absurd hnil (List.append_ne_nil_of_right_ne_nil _ (List.cons_ne_nil _ _))
      · have htfile := hrow.file
        rw [hv, hg] at hfile
        rw [hrow.group] at htfile
        exact h.hasFile_id hfile htfile
    exact ⟨⟨s, w', hside', hmem, hparent⟩, ne_of_gt (h.hasFile_pos hrow.file)⟩

/-- The rows the loop over the parents adds are the common directories right above a row that
differs. -/
theorem mem_parents_iff (hgroup : ∃ row ∈ db.fileGroups, row.id = g)
    {t : FileRow × DefineFileRow} (ht : t ∈ db.filesJoin) :
    (t.1.id ∈ (differing my db left right g).map ModelDiffFile.parentFileId ∧ t.1.id ≠ 0 ∧
        t.1.id ∉ (differing my db left right g).map ModelDiffFile.id) ↔
      ∃ p c, GroupRow db g t p c ∧
        HasDifferingChild db.paths left right g t.1.versionId (p ++ [c]) := by
  have hkey : ∀ state (s : FileRow × DefineFileRow), (diffFile state s).id = s.1.id :=
    fun _ _ => rfl
  rw [← and_assoc, mem_differing_parents h my hgroup ht, mem_map_differing my hkey]
  -- a row that differs is known by its id
  have hid : ∀ {p c}, GroupRow db g t p c →
      ((∃ s w, Side left right s.1.versionId w ∧ s ∈ diffRows my db s.1.versionId w g ∧
          s.1.id = t.1.id) ↔
        PathDiffers db.paths left right g t.1.versionId (p ++ [c])) := by
    intro p c hrow
    rw [← mem_diffRows_iff h my hgroup hrow]
    constructor
    · rintro ⟨s, w, hside, hs, hst⟩
      obtain rfl := List.inj_on_of_nodup_map h.nodup_filesJoin (mem_diffRows.mp hs).1 ht hst
      exact ⟨w, hside, hs⟩
    · rintro ⟨w, hside, hs⟩
      exact ⟨t, w, hside, hs, rfl⟩
  constructor
  · rintro ⟨⟨p, c, hrow, x, w, hside, hdiff⟩, hnot⟩
    rw [hid hrow] at hnot
    refine ⟨p, c, hrow, w, hside, ?_, x, hdiff⟩
    by_contra hw
    exact hnot ⟨w, hside, ⟨_, hrow.group ▸ hrow.file⟩, hw⟩
  · rintro ⟨p, c, hrow, w, hside, hw, x, hdiff⟩
    refine ⟨⟨p, c, hrow, x, w, hside, hdiff⟩, ?_⟩
    rw [hid hrow]
    rintro ⟨w', hside', -, hnot⟩
    exact hnot (hside.unique hside' ▸ hw)

/-! ### The entries of a group -/

/-- Every entry is made of a row of the group that differs, or that is right above one. -/
theorem entry_cases (hgroup : ∃ row ∈ db.fileGroups, row.id = g) {e : ModelDiffFile}
    (he : e ∈ (getDiff my db left right).entries g) :
    ∃ t p c, GroupRow db g t p c ∧ e = diffFile e.state t ∧
      ((e.state = .none ∧ HasDifferingChild db.paths left right g t.1.versionId (p ++ [c])) ∨
        (e.state ≠ .none ∧ PathDiffers db.paths left right g t.1.versionId (p ++ [c]))) := by
  obtain ⟨ts, hE, -, hts⟩ := withParents_getDiff my h.nodup_filesJoin left right g
  rw [hE] at he
  rcases List.mem_append.mp he with he | he
  · -- an entry that differs
    have hrowOf : ∀ {v w t}, Side left right v w → t ∈ diffRows my db v w g → ∃ p c,
        GroupRow db g t p c ∧ PathDiffers db.paths left right g t.1.versionId (p ++ [c]) := by
      intro v w t hside ht
      obtain ⟨hjoin, hg, -, hdiffers⟩ := mem_diffRows.mp ht
      obtain ⟨p, c, hrow⟩ := h.rowAt hjoin
      have hgrow : GroupRow db g t p c := { hrow with join := hjoin, group := hg }
      obtain rfl := ((h.differs_iff hrow v w).mp hdiffers).1
      exact ⟨p, c, hgrow, (mem_diffRows_iff h my hgroup hgrow).mp ⟨w, hside, ht⟩⟩
    obtain ⟨v, w, t, ht, ⟨hv, hw, rfl⟩ | ⟨hv, hw, rfl⟩⟩ := (mem_differing my).mp he
    · obtain ⟨p, c, hrow, hdiff⟩ := hrowOf (Or.inl ⟨hv, hw⟩) ht
      exact ⟨t, p, c, hrow, rfl, Or.inr ⟨by simp [diffFile], hdiff⟩⟩
    · obtain ⟨p, c, hrow, hdiff⟩ := hrowOf (Or.inr ⟨hv, hw⟩) ht
      exact ⟨t, p, c, hrow, rfl, Or.inr ⟨by simp [diffFile], hdiff⟩⟩
  · obtain ⟨t, ht, rfl⟩ := List.mem_map.mp he
    obtain ⟨hjoin, hparent⟩ := (hts t).mp ht
    obtain ⟨p, c, hrow, hchild⟩ := (mem_parents_iff h my hgroup hjoin).mp hparent
    exact ⟨t, p, c, hrow, rfl, Or.inl ⟨rfl, hchild⟩⟩

/-- Every row of the group that differs has an entry. -/
theorem exists_differing_entry (hgroup : ∃ row ∈ db.fileGroups, row.id = g)
    {t : FileRow × DefineFileRow} {p : Path} {c : Component} (hrow : GroupRow db g t p c)
    (hdiff : PathDiffers db.paths left right g t.1.versionId (p ++ [c])) :
    ∃ e ∈ (getDiff my db left right).entries g, e.state ≠ .none ∧ e = diffFile e.state t := by
  obtain ⟨ts, hE, -, -⟩ := withParents_getDiff my h.nodup_filesJoin left right g
  obtain ⟨w, hside, ht⟩ := (mem_diffRows_iff h my hgroup hrow).mpr hdiff
  rw [hE]
  rcases hside with ⟨hv, hw⟩ | ⟨hv, hw⟩
  · exact ⟨diffFile .missing t, List.mem_append_left _
      ((mem_differing my).mpr ⟨_, _, t, ht, Or.inl ⟨hv, hw, rfl⟩⟩), by simp [diffFile], rfl⟩
  · exact ⟨diffFile .new t, List.mem_append_left _
      ((mem_differing my).mpr ⟨_, _, t, ht, Or.inr ⟨hv, hw, rfl⟩⟩), by simp [diffFile], rfl⟩

/-- Every common row right above one that differs has an entry. -/
theorem parent_entry_mem (hgroup : ∃ row ∈ db.fileGroups, row.id = g)
    {t : FileRow × DefineFileRow} {p : Path} {c : Component} (hrow : GroupRow db g t p c)
    (hchild : HasDifferingChild db.paths left right g t.1.versionId (p ++ [c])) :
    diffFile .none t ∈ (getDiff my db left right).entries g := by
  obtain ⟨ts, hE, -, hts⟩ := withParents_getDiff my h.nodup_filesJoin left right g
  rw [hE]
  refine List.mem_append_right _ (List.mem_map_of_mem ((hts t).mpr ⟨hrow.join, ?_⟩))
  exact (mem_parents_iff h my hgroup hrow.join).mpr ⟨p, c, hrow, hchild⟩

/-- A group without a row has no entries. -/
theorem entries_eq_nil (hgroup : ¬ ∃ row ∈ db.fileGroups, row.id = g) :
    (getDiff my db left right).entries g = [] := by
  obtain ⟨ts, hE, -, hts⟩ := withParents_getDiff my h.nodup_filesJoin left right g
  have hnil : differing my db left right g = [] := by
    refine List.eq_nil_iff_forall_not_mem.mpr fun e he => ?_
    obtain ⟨v, w, t, ht, -⟩ := (mem_differing my).mp he
    exact hgroup (mem_diffRows.mp ht).2.2.1
  have hts' : ts = [] := by
    refine List.eq_nil_iff_forall_not_mem.mpr fun t ht => ?_
    obtain ⟨-, hparent, -⟩ := (hts t).mp ht
    rw [hnil] at hparent
    exact List.not_mem_nil hparent
  rw [hE, hnil, hts']
  rfl

end Rows

/-! ### The tree -/

/-- The entries of a group are a complete tree: parents of entries are entries, so that the parent
links lead from every entry to the root, and the entries with an empty state are the directories
above the entries that differ, apart from those that differ themselves. -/
structure CompleteTree (db : Database) (E : List ModelDiffFile) : Prop where
  closed : ∀ e ∈ E, e.parentFileId = 0 ∨ ∃ parent ∈ E, parent.id = e.parentFileId
  reachesRoot : ∀ e ∈ E,
    Forest.ReachesRoot ModelDiffFile.id ModelDiffFile.parentFileId E e.id
  ancestors : ∀ q, (∃ e ∈ E, e.state = .none ∧ db.HasDefine q e.defineFileId) ↔
    q ≠ [] ∧ (¬ ∃ e ∈ E, e.state ≠ .none ∧ db.HasDefine q e.defineFileId) ∧
      ∃ e ∈ E, e.state ≠ .none ∧ ∃ p, db.HasDefine p e.defineFileId ∧ q <+: p ∧ q ≠ p

/-- Wherever a directory that both versions have contains a path only `v` has, the directory it lies
in contains a path only `v` has as well. -/
def ParentsDiffer (P : PathStore) (left right g : ℤ) : Prop :=
  ∀ v p c, p ≠ [] → HasDifferingChild P left right g v (p ++ [c]) →
    ∃ x, PathDiffers P left right g v (p ++ [x])

section Tree

variable {db : Database} (h : PathForest db) {left right g : ℤ}
include h

theorem PathForest.exists_groupRow {v : ℤ} {p : Path} {f : ℤ} (hf : db.HasFile v g p f) :
    ∃ t q c, GroupRow db g t q c ∧ p = q ++ [c] ∧ t.1.versionId = v ∧ t.1.id = f := by
  obtain ⟨t, ht, hv, hg, hid⟩ := hf.exists_row
  obtain ⟨q, c, hrow⟩ := h.rowAt ht
  have hpath : q ++ [c] = p := by
    rw [← hid] at hf
    exact (h.hasFile_path hrow.file hf).2.2
  exact ⟨t, q, c, { hrow with join := ht, group := hg }, hpath.symm, hv, hid⟩

/-- The row above a row that is not directly below the root. -/
theorem GroupRow.parent_row {t : FileRow × DefineFileRow} {p : Path} {c : Component}
    (hrow : GroupRow db g t p c) (hp : p ≠ []) :
    ∃ s q x, GroupRow db g s q x ∧ p = q ++ [x] ∧ s.1.versionId = t.1.versionId ∧
      s.1.id = t.1.parentId := by
  rcases hrow.parent with ⟨hnil, -⟩ | hfile
  · exact absurd hnil hp
  · rw [hrow.group] at hfile
    exact h.exists_groupRow hfile

theorem closed_of_parentsDiffer (my : MySql) (hgroup : ∃ row ∈ db.fileGroups, row.id = g)
    (hcond : ParentsDiffer db.paths left right g) :
    ∀ e ∈ (getDiff my db left right).entries g, e.parentFileId = 0 ∨
      ∃ parent ∈ (getDiff my db left right).entries g, parent.id = e.parentFileId := by
  intro e he
  obtain ⟨t, p, c, hrow, hmade, hstate⟩ := entry_cases h my hgroup he
  have hparent : e.parentFileId = t.1.parentId := congrArg ModelDiffFile.parentFileId hmade
  by_cases hp : p = []
  · subst hp
    rcases hrow.parent with ⟨-, hzero⟩ | hfile
    · exact Or.inl (hparent.trans hzero)
    · exact absurd rfl (h.ne_nil_of_hasFile hfile)
  · obtain ⟨s, q, x, hsrow, rfl, hv, hid⟩ := GroupRow.parent_row h hrow hp
    -- the row above differs, or it is right above a row that differs
    have hnext : HasDifferingChild db.paths left right g s.1.versionId (q ++ [x]) ∨
        PathDiffers db.paths left right g s.1.versionId (q ++ [x]) := by
      rw [hv]
      rcases hstate with ⟨-, hchild⟩ | ⟨-, w, hside, hmem, hnot⟩
      · obtain ⟨y, w, hside, hmem, hnot⟩ := hcond _ _ _ hp hchild
        obtain ⟨w', hside', hcommon, -⟩ := hchild
        obtain rfl := hside.unique hside'
        exact Or.inl ⟨w, hside, h.paths_prefix hp hcommon, y, hmem, hnot⟩
      · by_cases hcommon : q ++ [x] ∈ db.paths w g
        · exact Or.inl ⟨w, hside, hcommon, c, hmem, hnot⟩
        · exact Or.inr ⟨w, hside, h.paths_prefix hp hmem, hcommon⟩
    rw [hparent, ← hid]
    rcases hnext with hchild | hdiff
    · exact Or.inr ⟨_, parent_entry_mem h my hgroup hsrow hchild, rfl⟩
    · obtain ⟨e', he', -, hmade'⟩ := exists_differing_entry h my hgroup hsrow hdiff
      exact Or.inr ⟨e', he', congrArg ModelDiffFile.id hmade'⟩

theorem parentsDiffer_of_closed (my : MySql) (hgroup : ∃ row ∈ db.fileGroups, row.id = g)
    (hclosed : ∀ e ∈ (getDiff my db left right).entries g, e.parentFileId = 0 ∨
      ∃ parent ∈ (getDiff my db left right).entries g, parent.id = e.parentFileId) :
    ParentsDiffer db.paths left right g := by
  intro v p c hp hchild
  obtain ⟨w, hside, hcommon, x, hmem, hnot⟩ := hchild
  have hne := List.append_ne_nil_of_right_ne_nil p (List.cons_ne_nil c [])
  obtain ⟨f, hf⟩ := h.paths_prefix hne hmem
  obtain ⟨t, q, e, hrow, hpath, rfl, rfl⟩ := h.exists_groupRow hf
  obtain ⟨rfl, rfl⟩ := List.append_singleton_inj.mp hpath
  obtain ⟨s, q, y, hsrow, rfl, hv, hid⟩ := GroupRow.parent_row h hrow hp
  have hentry := parent_entry_mem h my hgroup hrow ⟨w, hside, hcommon, x, hmem, hnot⟩
  rcases hclosed _ hentry with hzero | ⟨e', he', hid'⟩
  · have hpos := h.hasFile_pos hsrow.file
    rw [hid] at hpos
    exact absurd hzero (ne_of_gt hpos)
  · obtain ⟨t', q', c', hrow', hmade, hstate⟩ := entry_cases h my hgroup he'
    -- the entry of the parent id is the one of the row above
    have hsame : t'.1.id = s.1.id :=
      (congrArg ModelDiffFile.id hmade).symm.trans (hid'.trans hid.symm)
    obtain rfl := List.inj_on_of_nodup_map h.nodup_filesJoin hrow'.join hsrow.join hsame
    obtain ⟨rfl, rfl⟩ := h.rowAt_unique hrow'.toRowAt hsrow.toRowAt
    rw [hv] at hstate
    rcases hstate with ⟨-, w', hside', -, y, hmem', hnot'⟩ | ⟨-, w', hside', -, hnot'⟩
    · exact ⟨y, w', hside', hmem', hnot'⟩
    · obtain rfl := hside.unique hside'
      exact absurd (h.paths_prefix hp hcommon) hnot'

/-- Where the entries are closed under parents, everything above an entry is an entry. -/
theorem ancestors_of_closed (my : MySql) (hgroup : ∃ row ∈ db.fileGroups, row.id = g)
    (hclosed : ∀ e ∈ (getDiff my db left right).entries g, e.parentFileId = 0 ∨
      ∃ parent ∈ (getDiff my db left right).entries g, parent.id = e.parentFileId)
    {v : ℤ} {p : Path} {f : ℤ} (hf : db.HasFile v g p f)
    (he : ∃ e ∈ (getDiff my db left right).entries g, e.id = f) {q : Path} (hq : q ≠ [])
    (hpre : q <+: p) :
    ∃ f', db.HasFile v g q f' ∧ ∃ e ∈ (getDiff my db left right).entries g, e.id = f' := by
  induction p using List.reverseRecOn generalizing f with
  | nil => exact absurd (List.prefix_nil.mp hpre) hq
  | append_singleton p c ih =>
    rcases List.prefix_concat_iff.mp hpre with rfl | hpre
    · exact ⟨f, hf, he⟩
    · have hp : p ≠ [] := fun hnil => hq (List.prefix_nil.mp (hnil ▸ hpre))
      obtain ⟨e, he, rfl⟩ := he
      obtain ⟨t, q', c', hrow, hmade, -⟩ := entry_cases h my hgroup he
      have htf : db.HasFile v g (p ++ [c]) t.1.id := by
        have hid : e.id = t.1.id := congrArg ModelDiffFile.id hmade
        exact hid ▸ hf
      obtain ⟨rfl, -, hpath⟩ := h.hasFile_path hrow.file htf
      obtain ⟨rfl, -⟩ := List.append_singleton_inj.mp hpath
      -- the row of the directory above, whose entry is the parent of this one
      obtain ⟨s, q', x, hsrow, rfl, hv, hid⟩ := GroupRow.parent_row h hrow hp
      have hsfile := hsrow.file
      rw [hv, hsrow.group] at hsfile
      have hparent : e.parentFileId = s.1.id :=
        (congrArg ModelDiffFile.parentFileId hmade).trans hid.symm
      refine ih hsfile ?_ hpre
      rcases hclosed e he with hzero | ⟨e', he', hid'⟩
      · exact absurd (hparent.symm.trans hzero) (ne_of_gt (h.hasFile_pos hsfile))
      · exact ⟨e', he', hid'.trans hparent⟩

/-- The rows of the entries with an empty state are above rows of entries that differ, and do not
differ themselves. -/
theorem ancestors_iff (my : MySql) (hgroup : ∃ row ∈ db.fileGroups, row.id = g)
    (hclosed : ∀ e ∈ (getDiff my db left right).entries g, e.parentFileId = 0 ∨
      ∃ parent ∈ (getDiff my db left right).entries g, parent.id = e.parentFileId) (q : Path) :
    (∃ e ∈ (getDiff my db left right).entries g,
        e.state = .none ∧ db.HasDefine q e.defineFileId) ↔
      q ≠ [] ∧
        (¬ ∃ e ∈ (getDiff my db left right).entries g,
          e.state ≠ .none ∧ db.HasDefine q e.defineFileId) ∧
        ∃ e ∈ (getDiff my db left right).entries g, e.state ≠ .none ∧
          ∃ p, db.HasDefine p e.defineFileId ∧ q <+: p ∧ q ≠ p := by
  -- the path of an entry is the one of its row
  have hpathOf : ∀ {e : ModelDiffFile} {t p c r}, GroupRow db g t p c → e = diffFile e.state t →
      db.HasDefine r e.defineFileId → r = p ++ [c] := by
    intro e t p c r hrow hmade hr
    have hdefine : e.defineFileId = t.1.defineFileId := congrArg ModelDiffFile.defineFileId hmade
    exact h.hasDefine_path hr (hdefine ▸ hrow.define)
  constructor
  · rintro ⟨e, he, hstate, hq⟩
    obtain ⟨t, p, c, hrow, hmade, ⟨-, w, hside, hcommon, x, hmem, hnot⟩ | ⟨hne, -⟩⟩ :=
      entry_cases h my hgroup he
    · obtain rfl := hpathOf hrow hmade hq
      refine ⟨List.append_ne_nil_of_right_ne_nil _ (List.cons_ne_nil _ _), ?_, ?_⟩
      · rintro ⟨e', he', hne', hq'⟩
        obtain ⟨t', p', c', hrow', hmade', ⟨hnone, -⟩ | ⟨-, w', hside', -, hnot'⟩⟩ :=
          entry_cases h my hgroup he'
        · exact hne' hnone
        · rw [← hpathOf hrow' hmade' hq'] at hnot'
          rcases hside.same hside' with rfl | rfl
          · exact hnot' ⟨_, hrow.group ▸ hrow.file⟩
          · exact hnot' hcommon
      · obtain ⟨f, hf⟩ := hmem
        obtain ⟨s, r, y, hsrow, hpath, hv, -⟩ := h.exists_groupRow hf
        rw [← hv] at hside
        have hdiff : PathDiffers db.paths left right g s.1.versionId (r ++ [y]) := by
          rw [← hpath]
          exact ⟨w, hside, ⟨f, hv ▸ hf⟩, hnot⟩
        obtain ⟨e', he', hne', hmade'⟩ := exists_differing_entry h my hgroup hsrow hdiff
        refine ⟨e', he', hne', p ++ [c] ++ [x], ?_, List.prefix_append _ _, by simp⟩
        rw [hmade', hpath]
        exact hsrow.define
    · exact absurd hstate hne
  · rintro ⟨hq, hnot, e, he, hne, p, hp, hpre, -⟩
    obtain ⟨t, p', c, hrow, hmade, -⟩ := entry_cases h my hgroup he
    obtain rfl := hpathOf hrow hmade hp
    have hfile := hrow.file
    rw [hrow.group] at hfile
    obtain ⟨f', hf', e', he', rfl⟩ := ancestors_of_closed h my hgroup hclosed hfile
      ⟨e, he, congrArg ModelDiffFile.id hmade⟩ hq hpre
    obtain ⟨t', p'', c', hrow', hmade', -⟩ := entry_cases h my hgroup he'
    have hid : e'.id = t'.1.id := congrArg ModelDiffFile.id hmade'
    rw [hid] at hf'
    have hdefine : db.HasDefine q e'.defineFileId := by
      rw [hmade', ← (h.hasFile_path hrow'.file hf').2.2]
      exact hrow'.define
    refine ⟨e', he', ?_, hdefine⟩
    by_contra hstate
    exact hnot ⟨e', he', hstate, hdefine⟩

/-- The entries of a group that has a row are a complete tree exactly when the parents differ. -/
theorem completeTree_iff_of_group (my : MySql) (hgroup : ∃ row ∈ db.fileGroups, row.id = g) :
    CompleteTree db ((getDiff my db left right).entries g) ↔
      ParentsDiffer db.paths left right g := by
  refine ⟨fun htree => parentsDiffer_of_closed h my hgroup htree.closed, fun hcond => ?_⟩
  have hclosed := closed_of_parentsDiffer h my hgroup hcond
  refine ⟨hclosed, fun e he => Forest.Closed.reachesRoot hclosed (fun e' he' => ?_) he,
    ancestors_iff h my hgroup hclosed⟩
  obtain ⟨t, p, c, hrow, hmade, -⟩ := entry_cases h my hgroup he'
  rw [hmade]
  exact h.descending _ (mem_links_of_mem_filesJoin hrow.join)

end Tree

/-- **When the diff is a tree.** After any sequence of calls, the entries the diff of two versions
reports in a group are a complete tree if and only if the parents differ along with the directories
in them: `findAndAddFile` goes up one level only. A group that is not in the result has no
entries. -/
theorem completeTree_iff (my : MySql) (calls : List Call) (left right g : ℤ) :
    CompleteTree (reached my calls).db
        ((getDiff my (reached my calls).db left right).entries g) ↔
      ((∃ row ∈ (reached my calls).db.fileGroups, row.id = g) →
        ParentsDiffer (callPaths calls) left right g) := by
  obtain ⟨h, hpaths⟩ := paths_reached my calls
  rw [← hpaths]
  by_cases hgroup : ∃ row ∈ (reached my calls).db.fileGroups, row.id = g
  · rw [completeTree_iff_of_group h my hgroup]
    exact ⟨fun hcond _ => hcond, fun hcond => hcond hgroup⟩
  · rw [entries_eq_nil h my hgroup]
    refine ⟨fun _ hg => absurd hg hgroup, fun _ => ⟨?_, ?_, fun q => ?_⟩⟩
    · exact fun _ he => absurd he List.not_mem_nil
    · exact fun _ he => absurd he List.not_mem_nil
    · simp

/-- Two versions of one group: the second lacks one file two directories down. -/
def deepFile : List Call :=
  [.findVersionOrCreate (lit "1.0"), .findVersionOrCreate (lit "1.1"),
    .findGroupOrCreate (lit "core"), .addFile 1 1 (fileInfo (lit "a/b/c")),
    .addFile 2 1 (fileInfo (lit "a/b"))]

/-- The row of `/a/b` is reported below the row of `/a`, which is not reported. -/
theorem deepFile_not_completeTree :
    ¬ CompleteTree (reached .innodb deepFile).db
      ((getDiff .innodb (reached .innodb deepFile).db 1 2).entries 1) := by
  intro h
  have hentries : ((getDiff .innodb (reached .innodb deepFile).db 1 2).entries 1).map
      (fun e => (e.id, e.parentFileId)) = [(3, 2), (2, 1)] := by
    decide
  have hclosed : ∀ x ∈ ((getDiff .innodb (reached .innodb deepFile).db 1 2).entries 1).map
      (fun e => (e.id, e.parentFileId)), x.2 = 0 ∨
        ∃ y ∈ ((getDiff .innodb (reached .innodb deepFile).db 1 2).entries 1).map
          (fun e => (e.id, e.parentFileId)), y.1 = x.2 := by
    intro x hx
    obtain ⟨e, he, rfl⟩ := List.mem_map.mp hx
    refine (h.closed e he).imp_right ?_
    rintro ⟨parent, hparent, hid⟩
    exact ⟨_, List.mem_map_of_mem hparent, hid⟩
  rw [hentries] at hclosed
  exact absurd hclosed (by decide)

end WebDiff
