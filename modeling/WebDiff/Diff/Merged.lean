import WebDiff.Diff.Counts
import WebDiff.Diff.Tree

/-!
# When the diff lists every path once

The page draws an entry in the columns of both versions, so a directory should have one entry. The
search for the parents asks for the ids of the rows, and a directory that both versions have has a
row in each of them. It is listed twice exactly when something right below it was removed and
something right below it was added (`onceByPath_iff`).
-/

namespace WebDiff

/-- No path has two entries in a group. -/
def OnceByPath (d : ModelDiffGroups) : Prop :=
  ∀ g, ((d.entries g).map ModelDiffFile.defineFileId).Nodup

/-- Right below the path, each of the two versions has a path that the other has not. -/
def DiffersBothWays (P : PathStore) (left right g : ℤ) (p : Path) : Prop :=
  (∃ x, p ++ [x] ∈ P left g \ P right g) ∧ ∃ y, p ++ [y] ∈ P right g \ P left g

section Group

variable {db : Database} (h : PathForest db) (my : MySql) {left right g : ℤ}
include h

/-- A directory both versions have, with a path below it that only `v` has, has an entry for its row
of the version `v`. -/
theorem exists_parent_entry (hgroup : ∃ row ∈ db.fileGroups, row.id = g) {v w : ℤ}
    (hside : Side left right v w) {p : Path} (hp : p ≠ []) (hcommon : p ∈ db.paths w g)
    {x : Component} (hx : p ++ [x] ∈ db.paths v g \ db.paths w g) :
    ∃ t ∈ db.filesJoin, t.1.versionId = v ∧ db.HasDefine p t.1.defineFileId ∧
      diffFile .none t ∈ (getDiff my db left right).entries g := by
  -- a prefix of a path of `v` is a path of `v`
  obtain ⟨f, hf⟩ := h.paths_prefix hp hx.1
  obtain ⟨t, q, c, hrow, rfl, rfl, -⟩ := h.exists_groupRow hf
  exact ⟨t, hrow.join, rfl, hrow.define,
    parent_entry_mem h my hgroup hrow ⟨w, hside, hcommon, x, hx⟩⟩

/-- Such a directory is listed once for each version. -/
theorem not_nodup_of_differsBothWays (hgroup : ∃ row ∈ db.fileGroups, row.id = g) {p : Path}
    (hp : p ≠ []) (hboth : DiffersBothWays db.paths left right g p) :
    ¬ (((getDiff my db left right).entries g).map ModelDiffFile.defineFileId).Nodup := by
  obtain ⟨⟨x, hx⟩, y, hy⟩ := hboth
  obtain ⟨t, hjoin, hv, hdefine, ht⟩ := exists_parent_entry h my hgroup (Or.inl ⟨rfl, rfl⟩) hp
    (h.paths_prefix hp hy.1) hx
  obtain ⟨t', hjoin', hv', hdefine', ht'⟩ := exists_parent_entry h my hgroup (Or.inr ⟨rfl, rfl⟩) hp
    (h.paths_prefix hp hx.1) hy
  intro hnodup
  -- the two entries have the define id of `p`, so they would be one entry of one row
  have hentry : diffFile .none t = diffFile .none t' :=
    List.inj_on_of_nodup_map hnodup ht ht' (h.hasDefine_id hdefine hdefine')
  obtain rfl := List.inj_on_of_nodup_map h.nodup_filesJoin hjoin hjoin'
    (congrArg ModelDiffFile.id hentry)
  obtain rfl := hv.symm.trans hv'
  exact hx.2 hx.1

/-- Entries of one path are entries of one row, unless the path is a directory that differs both
ways. -/
theorem eq_of_defineFileId_eq (hgroup : ∃ row ∈ db.fileGroups, row.id = g)
    (hnone : ∀ p, p ≠ [] → ¬ DiffersBothWays db.paths left right g p) {e e' : ModelDiffFile}
    (he : e ∈ (getDiff my db left right).entries g)
    (he' : e' ∈ (getDiff my db left right).entries g) (heq : e.defineFileId = e'.defineFileId) :
    e = e' := by
  refine List.inj_on_of_nodup_map (nodup_entries h.primaryKeys my left right g) he he' ?_
  obtain ⟨t, p, c, hrow, hmade, hstate⟩ := entry_cases h my hgroup he
  obtain ⟨t', p', c', hrow', hmade', hstate'⟩ := entry_cases h my hgroup he'
  -- both rows stand for the same path
  have hdefine : t.1.defineFileId = t'.1.defineFileId := by
    rw [hmade, hmade'] at heq
    exact heq
  have hpath : p' ++ [c'] = p ++ [c] := h.hasDefine_path hrow'.define (hdefine ▸ hrow.define)
  have hfile := hrow.file
  have hfile' := hrow'.file
  rw [hrow.group] at hfile
  rw [hrow'.group, hpath] at hfile'
  rw [hpath] at hstate'
  rw [hmade, hmade']
  show t.1.id = t'.1.id
  -- a row is known by its version
  have hrows : t.1.versionId = t'.1.versionId → t.1.id = t'.1.id := by
    intro hv
    rw [← hv] at hfile'
    exact h.hasFile_id hfile hfile'
  have hmem : p ++ [c] ∈ db.paths t.1.versionId g := ⟨_, hfile⟩
  have hmem' : p ++ [c] ∈ db.paths t'.1.versionId g := ⟨_, hfile'⟩
  rcases hstate with ⟨-, w, hside, hcommon, x, hx⟩ | ⟨-, w, hside, -, hnot⟩
  · rcases hstate' with ⟨-, w', hside', -, y, hy⟩ | ⟨-, w', hside', -, hnot'⟩
    · -- two directories of different versions differ both ways
      by_contra hne
      have hp : p ++ [c] ≠ [] := List.append_ne_nil_of_right_ne_nil _ (List.cons_ne_nil _ _)
      have hversion : t.1.versionId ≠ t'.1.versionId := fun hv => hne (hrows hv)
      rcases hside with ⟨hv, rfl⟩ | ⟨hv, rfl⟩ <;> rcases hside' with ⟨hv', rfl⟩ | ⟨hv', rfl⟩
      · exact hversion (hv.trans hv'.symm)
      · exact hnone _ hp ⟨⟨x, hv ▸ hx⟩, y, hv' ▸ hy⟩
      · exact hnone _ hp ⟨⟨y, hv' ▸ hy⟩, x, hv ▸ hx⟩
      · exact hversion (hv.trans hv'.symm)
    -- one entry says the path is in both versions, the other that it is in one
    · rcases hside.same hside' with hw | hw
      · exact absurd (hw ▸ hmem) hnot'
      · exact absurd (hw ▸ hcommon) hnot'
  · rcases hstate' with ⟨-, w', hside', hcommon', -⟩ | ⟨-, w', hside', -, hnot'⟩
    · rcases hside'.same hside with hw | hw
      · exact absurd (hw ▸ hmem') hnot
      · exact absurd (hw ▸ hcommon') hnot
    -- two differing rows of one path would be rows of both versions, which then do not differ
    · refine hrows ?_
      by_contra hversion
      have hw : w = t'.1.versionId := by
        unfold Side at hside hside'
        omega
      exact hnot (hw ▸ hmem')

/-- The paths of a group that has a row are listed once exactly when no directory differs both
ways. -/
theorem nodup_defineFileIds_iff (hgroup : ∃ row ∈ db.fileGroups, row.id = g) :
    (((getDiff my db left right).entries g).map ModelDiffFile.defineFileId).Nodup ↔
      ∀ p, p ≠ [] → ¬ DiffersBothWays db.paths left right g p := by
  constructor
  · intro hnodup p hp hboth
    exact not_nodup_of_differsBothWays h my hgroup hp hboth hnodup
  · intro hnone
    refine List.Nodup.map_on (fun e he e' he' heq => ?_)
      (nodup_entries h.primaryKeys my left right g).of_map
    exact eq_of_defineFileId_eq h my hgroup hnone he he' heq

end Group

/-- **When the diff lists every path once.** After any sequence of calls, no path has two entries in
a group of the diff of two versions if and only if in no group that has a row there is a directory
right below which each of the two versions has a path that the other has not. -/
theorem onceByPath_iff (my : MySql) (calls : List Call) (left right : ℤ) :
    OnceByPath (getDiff my (reached my calls).db left right) ↔
      ∀ g, (∃ row ∈ (reached my calls).db.fileGroups, row.id = g) →
        ∀ p, p ≠ [] → ¬ DiffersBothWays (callPaths calls) left right g p := by
  obtain ⟨h, hpaths⟩ := paths_reached my calls
  rw [← hpaths]
  refine forall_congr' fun g => ?_
  by_cases hgroup : ∃ row ∈ (reached my calls).db.fileGroups, row.id = g
  · rw [nodup_defineFileIds_iff h my hgroup]
    exact ⟨fun hcond _ => hcond, fun hcond => hcond hgroup⟩
  -- a group without a row is not in the diff
  · rw [entries_eq_nil h my hgroup]
    exact ⟨fun _ hg => absurd hg hgroup, fun _ => List.nodup_nil⟩

/-- Two versions of one directory: the first has the file `x` in it and the second the file `y`. -/
def replacedFile : List Call :=
  [.findVersionOrCreate (lit "1.0"), .findVersionOrCreate (lit "1.1"),
    .findGroupOrCreate (lit "core"), .addFile 1 1 (fileInfo (lit "a/x")),
    .addFile 2 1 (fileInfo (lit "a/y"))]

/-- The directory `/a` is listed twice. -/
theorem replacedFile_not_onceByPath :
    ¬ OnceByPath (getDiff .innodb (reached .innodb replacedFile).db 1 2) := by
  intro h
  have hentries : ((getDiff .innodb (reached .innodb replacedFile).db 1 2).entries 1).map
      ModelDiffFile.defineFileId = [2, 3, 1, 1] := by
    decide
  have hnodup := h 1
  rw [hentries] at hnodup
  exact absurd hnodup (by decide)

end WebDiff
