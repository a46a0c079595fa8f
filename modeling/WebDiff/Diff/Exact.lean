import WebDiff.Diff.Rows
import WebDiff.Storage.History

/-!
# The diff reports the difference

The missing and the new entries of a group are, one for one, the paths one version has and the other
has not. The text columns are read back as C strings, so this holds of the texts of the entries
exactly when none of these paths has a NUL byte (`diff_exact_iff`).
-/

namespace WebDiff

/-- The entries report the paths `S`: every path once, under the text it is stored as, and with its
last component as the file name. -/
structure ReportsExactly (E : List ModelDiffFile) (S : Set Path) : Prop where
  once : (E.map ModelDiffFile.filepath).Nodup
  exact : ∀ s, s ∈ E.map ModelDiffFile.filepath ↔ ∃ p ∈ S, renderPath p = s
  filename : ∀ e ∈ E, ∀ p c, e.filepath = renderPath (p ++ [c]) → e.filename = c.val

/-- The entries of a state. -/
def withState (state : DiffState) (E : List ModelDiffFile) : List ModelDiffFile :=
  E.filter fun e => e.state = state

theorem withState_map (state state' : DiffState) (ts : List (FileRow × DefineFileRow)) :
    withState state (ts.map (diffFile state')) =
      if state' = state then ts.map (diffFile state') else [] := by
  unfold withState
  rw [List.filter_map]
  split
  · next hs =>
    congr 1
    exact List.filter_eq_self.mpr fun t _ => by simp [diffFile, hs]
  · next hs =>
    have hnil : ts.filter ((fun e : ModelDiffFile => decide (e.state = state)) ∘ diffFile state')
        = [] := List.filter_eq_nil_iff.mpr fun t _ => by simp [diffFile, hs]
    rw [hnil, List.map_nil]

/-- The entries with a state are those of the rows that differ. -/
theorem withState_getDiff (my : MySql) {db : Database} (h : PathForest db) (left right g : ℤ) :
    withState .missing ((getDiff my db left right).entries g)
        = (diffRows my db left right g).map (diffFile .missing) ∧
      withState .new ((getDiff my db left right).entries g)
        = (diffRows my db right left g).map (diffFile .new) := by
  obtain ⟨ts, hE, -, -⟩ := withParents_getDiff my h.nodup_filesJoin left right g
  have happ : ∀ state E E', withState state (E ++ E') = withState state E ++ withState state E' :=
    fun _ _ _ => List.filter_append _ _
  rw [hE, differing]
  constructor
  all_goals
    rw [happ, happ, withState_map, withState_map, withState_map]
    simp [DiffState.missing_ne_new.symm, DiffState.missing_ne_none.symm,
      DiffState.new_ne_none.symm]

section Rows

variable {db : Database} (h : PathForest db)
include h

/-- Rows of one version and group report their paths when these have no NUL byte. -/
theorem reportsExactly_iff {ts : List (FileRow × DefineFileRow)} {v g : ℤ} {S : Set Path}
    (state : DiffState)
    (hts : ∀ t ∈ ts, t ∈ db.filesJoin ∧ t.1.versionId = v ∧ t.1.fileGroupId = g)
    (hids : (ts.map fun t => t.1.id).Nodup)
    (hS : ∀ p, p ∈ S ↔ ∃ t ∈ ts, db.HasFile v g p t.1.id) :
    ReportsExactly (ts.map (diffFile state)) S ↔ ∀ p ∈ S, ∀ c ∈ p, 0 ∉ c.val := by
  constructor
  · intro hexact p hp c hc h0
    -- the text of every entry is a C string
    obtain ⟨e, he, hpath⟩ := List.mem_map.mp ((hexact.exact _).mpr ⟨p, hp, rfl⟩)
    obtain ⟨t, -, rfl⟩ := List.mem_map.mp he
    have hread : cString t.2.filepath = renderPath p := hpath
    exact not_mem_cString t.2.filepath (hread ▸ zero_mem_renderPath_iff.mpr ⟨c, hc, h0⟩)
  · intro hnul
    -- what a row is read back as
    have hread : ∀ t ∈ ts, ∃ p c, RowAt db t p c ∧ p ++ [c] ∈ S ∧
        cString t.2.filepath = renderPath (p ++ [c]) ∧ cString t.2.filename = c.val := by
      intro t ht
      obtain ⟨hjoin, rfl, rfl⟩ := hts t ht
      obtain ⟨p, c, hrow⟩ := h.rowAt hjoin
      have hp : p ++ [c] ∈ S := (hS _).mpr ⟨t, ht, hrow.file⟩
      have hpath : 0 ∉ renderPath (p ++ [c]) := fun h0 => by
        obtain ⟨e, he, h0⟩ := zero_mem_renderPath_iff.mp h0
        exact hnul _ hp e he h0
      have hname : 0 ∉ c.val := hnul _ hp c (List.mem_append_right _ (List.mem_singleton.mpr rfl))
      refine ⟨p, c, hrow, hp, ?_, ?_⟩
      · rw [hrow.filepath, cString_eq_self hpath]
      · rw [hrow.filename, cString_eq_self hname]
    refine ⟨?_, fun s => ?_, fun e he p c hpath => ?_⟩
    · rw [List.map_map]
      refine List.Nodup.map_on (fun t ht t' ht' heq => ?_) hids.of_map
      obtain ⟨p, c, hrow, -, hpath, -⟩ := hread t ht
      obtain ⟨p', c', hrow', -, hpath', -⟩ := hread t' ht'
      obtain ⟨-, hv, hg⟩ := hts t ht
      obtain ⟨-, hv', hg'⟩ := hts t' ht'
      have hsame : p ++ [c] = p' ++ [c'] :=
        renderPath_injective (hpath.symm.trans (heq.trans hpath'))
      have hfile := hrow.file
      have hfile' := hrow'.file
      rw [hv, hg, hsame] at hfile
      rw [hv', hg'] at hfile'
      exact List.inj_on_of_nodup_map hids ht ht' (h.hasFile_id hfile hfile')
    · rw [List.map_map, List.mem_map]
      constructor
      · rintro ⟨t, ht, rfl⟩
        obtain ⟨p, c, -, hp, hpath, -⟩ := hread t ht
        exact ⟨_, hp, hpath.symm⟩
      · rintro ⟨p, hp, rfl⟩
        obtain ⟨t, ht, hfile⟩ := (hS p).mp hp
        obtain ⟨q, c, hrow, -, hpath, -⟩ := hread t ht
        exact ⟨t, ht, hpath.trans (congrArg renderPath (h.hasFile_path hrow.file hfile).2.2)⟩
    · obtain ⟨t, ht, rfl⟩ := List.mem_map.mp he
      obtain ⟨q, e, -, -, hpath', hname⟩ := hread t ht
      have hsame : q ++ [e] = p ++ [c] := renderPath_injective (hpath'.symm.trans hpath)
      obtain ⟨rfl, rfl⟩ := List.append_singleton_inj.mp hsame
      exact hname

/-- The differing rows of a group that has a row are those of the differing paths. -/
theorem mem_paths_diff_iff (my : MySql) {left right g : ℤ}
    (hgroup : ∀ p ∈ db.paths left g, ∃ row ∈ db.fileGroups, row.id = g) (p : Path) :
    p ∈ db.paths left g \ db.paths right g ↔
      ∃ t ∈ diffRows my db left right g, db.HasFile left g p t.1.id := by
  constructor
  · rintro ⟨⟨f, hf⟩, hnot⟩
    obtain ⟨t, ht, hv, hg, rfl⟩ := hf.exists_row
    obtain ⟨q, c, hrow⟩ := h.rowAt ht
    have hpath : q ++ [c] = p := (h.hasFile_path hrow.file hf).2.2
    refine ⟨t, mem_diffRows.mpr ⟨ht, hg, hgroup p ⟨_, hf⟩, ?_⟩, hf⟩
    rw [h.differs_iff hrow, hpath, hg]
    exact ⟨hv, hnot⟩
  · rintro ⟨t, ht, hf⟩
    obtain ⟨hjoin, hg, -, hdiffers⟩ := mem_diffRows.mp ht
    obtain ⟨q, c, hrow⟩ := h.rowAt hjoin
    have hpath : q ++ [c] = p := (h.hasFile_path hrow.file hf).2.2
    rw [h.differs_iff hrow, hpath, hg] at hdiffers
    exact ⟨⟨_, hf⟩, hdiffers.2⟩

end Rows

/-- The diff of two versions reports the difference of the stores in every group. -/
def DiffExact (P : PathStore) (left right : ℤ) (d : ModelDiffGroups) : Prop :=
  ∀ g, ReportsExactly (withState .missing (d.entries g)) (P left g \ P right g) ∧
    ReportsExactly (withState .new (d.entries g)) (P right g \ P left g)

/-- **Exactness of the diff.** After any sequence of uploads, the diff of two versions reports in
every group exactly the paths uploaded to one of them and not to the other, each once, if and only
if none of these paths has a NUL byte. -/
theorem diff_exact_iff (my : MySql) (reqs : List AddRequest) (left right : ℤ) :
    DiffExact (requestPaths (uploaded my reqs).db reqs) left right
        (getDiff my (uploaded my reqs).db left right) ↔
      ∀ g p, (p ∈ requestPaths (uploaded my reqs).db reqs left g
            \ requestPaths (uploaded my reqs).db reqs right g ∨
          p ∈ requestPaths (uploaded my reqs).db reqs right g
            \ requestPaths (uploaded my reqs).db reqs left g) →
        ∀ c ∈ p, 0 ∉ c.val := by
  have hist := history_uploaded my reqs
  have h := hist.forest
  rw [← hist.paths]
  -- one direction of the diff in one group
  have hside : ∀ state v w g,
      ReportsExactly ((diffRows my (uploaded my reqs).db v w g).map (diffFile state))
          ((uploaded my reqs).db.paths v g \ (uploaded my reqs).db.paths w g) ↔
        ∀ p ∈ (uploaded my reqs).db.paths v g \ (uploaded my reqs).db.paths w g,
          ∀ c ∈ p, 0 ∉ c.val := by
    intro state v w g
    refine reportsExactly_iff h state (fun t ht => ?_) (h.nodup_diffRows my v w g)
      (mem_paths_diff_iff h my fun p hp => hist.exists_group hp)
    obtain ⟨hjoin, hg, -, hdiffers⟩ := mem_diffRows.mp ht
    obtain ⟨q, c, hrow⟩ := h.rowAt hjoin
    exact ⟨hjoin, ((h.differs_iff hrow v w).mp hdiffers).1, hg⟩
  unfold DiffExact
  refine forall_congr' fun g => ?_
  rw [(withState_getDiff my h left right g).1, (withState_getDiff my h left right g).2, hside,
    hside, ← forall_and]
  exact forall_congr' fun p => or_imp.symm

/-- The upload of one file whose path is the three bytes `'a'`, NUL, `'b'`. -/
def nulPath : List AddRequest :=
  [⟨lit "1.0", lit "core", [fileInfo [97, 0, 98]]⟩]

/-- The diff reports the path as `"/a"`. -/
theorem nulPath_not_exact :
    ¬ DiffExact (requestPaths (uploaded .innodb nulPath).db nulPath) 1 2
      (getDiff .innodb (uploaded .innodb nulPath).db 1 2) := by
  intro h
  have hentries : (withState .missing
      ((getDiff .innodb (uploaded .innodb nulPath).db 1 2).entries 1)).map ModelDiffFile.filepath
        = [lit "/a"] := by
    decide
  have hpath : pathOf [97, 0, 98] ∈ requestPaths (uploaded .innodb nulPath).db nulPath 1 1 :=
    ⟨_, List.mem_singleton.mpr rfl, by decide, by decide, _, List.mem_singleton.mpr rfl, by decide,
      List.prefix_rfl⟩
  have hother : pathOf [97, 0, 98] ∉ requestPaths (uploaded .innodb nulPath).db nulPath 2 1 := by
    rintro ⟨req, hreq, hv, -⟩
    obtain rfl := List.mem_singleton.mp hreq
    exact absurd hv (by decide)
  have hreported := ((h 1).1.exact _).mpr ⟨_, ⟨hpath, hother⟩, rfl⟩
  rw [hentries] at hreported
  exact absurd hreported (by decide)

end WebDiff
