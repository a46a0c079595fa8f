import Mathlib.Algebra.Ring.Int.Defs
import WebDiff.Framework.Matching
import WebDiff.Storage.Contents

/-!
# Tables with the same contents

Two databases with the same contents are equal up to a renaming of ids (`renames_of_contents`). The
renaming is read off names and paths: a version or group id goes to the id of the same name, a
define id to that of the same path, and a file id to that of the same path in the same version and
group. What the renaming does to define rows and file rows depends only on which versions and groups
it puts together (`SamePaths`), so tables with the same versions and groups need no names
(`renames_of_paths`).
-/

namespace WebDiff

open Table Matching

/-- A renaming of the ids of the four tables an upload writes. -/
structure Renaming where
  version : ℤ → ℤ
  group : ℤ → ℤ
  define : ℤ → ℤ
  file : ℤ → ℤ

namespace Renaming

variable (ρ : Renaming)

def versionRow (row : VersionRow) : VersionRow :=
  { row with id := ρ.version row.id }

def groupRow (row : FileGroupRow) : FileGroupRow :=
  { row with id := ρ.group row.id }

def defineRow (row : DefineFileRow) : DefineFileRow :=
  { row with
    id := ρ.define row.id
    parentId := ρ.define row.parentId }

def link (l : FileLink) : FileLink :=
  ⟨ρ.file l.id, ρ.version l.versionId, ρ.group l.fileGroupId, ρ.define l.defineFileId,
    ρ.file l.parentId⟩

def fileRow (row : FileRow) : FileRow :=
  ⟨ρ.link row.toFileLink, row.amountOfChildren⟩

@[simp] theorem fileRow_toFileLink (row : FileRow) :
    (ρ.fileRow row).toFileLink = ρ.link row.toFileLink := rfl

end Renaming

/-- The tables `db'` are the tables `db` under other ids, in some order. No two ids that occur get
the same new id, and `0`, the parent of the topmost rows, stays `0`. -/
structure Renaming.Renames (ρ : Renaming) (db db' : Database) : Prop where
  versions : (db.versions.map ρ.versionRow).Perm db'.versions
  fileGroups : (db.fileGroups.map ρ.groupRow).Perm db'.fileGroups
  defineFiles : (db.defineFiles.map ρ.defineRow).Perm db'.defineFiles
  files : (db.files.map ρ.fileRow).Perm db'.files
  version_inj : Set.InjOn ρ.version {v | ∃ row ∈ db.versions, row.id = v}
  group_inj : Set.InjOn ρ.group {g | ∃ row ∈ db.fileGroups, row.id = g}
  define_inj : Set.InjOn ρ.define {d | d = 0 ∨ ∃ row ∈ db.defineFiles, row.id = d}
  file_inj : Set.InjOn ρ.file {f | f = 0 ∨ ∃ l ∈ db.links, l.id = f}
  define_zero : ρ.define 0 = 0
  file_zero : ρ.file 0 = 0

/-! ### Ids of the same thing -/

section Same

variable (db db' : Database)

def SameVersion (v v' : ℤ) : Prop :=
  ∃ name, ⟨v, name⟩ ∈ db.versions ∧ ⟨v', name⟩ ∈ db'.versions

def SameGroup (g g' : ℤ) : Prop :=
  ∃ name, ⟨g, name⟩ ∈ db.fileGroups ∧ ⟨g', name⟩ ∈ db'.fileGroups

def SameDefine (d d' : ℤ) : Prop :=
  ∃ p, db.HasDefine p d ∧ db'.HasDefine p d'

def SameFile (f f' : ℤ) : Prop :=
  ∃ v v' g g' p, SameVersion db db' v v' ∧ SameGroup db db' g g' ∧ db.HasFile v g p f ∧
    db'.HasFile v' g' p f'

/-- The renaming that takes an id to the id of the same thing. -/
noncomputable def matching : Renaming where
  version := rename (SameVersion db db')
  group := rename (SameGroup db db')
  define := rename (SameDefine db db')
  file := rename (SameFile db db')

variable {db db'}

theorem SameVersion.symm {v v' : ℤ} (h : SameVersion db db' v v') : SameVersion db' db v' v :=
  have ⟨name, hv, hv'⟩ := h
  ⟨name, hv', hv⟩

theorem SameGroup.symm {g g' : ℤ} (h : SameGroup db db' g g') : SameGroup db' db g' g :=
  have ⟨name, hg, hg'⟩ := h
  ⟨name, hg', hg⟩

theorem SameDefine.symm {d d' : ℤ} (h : SameDefine db db' d d') : SameDefine db' db d' d :=
  have ⟨p, hd, hd'⟩ := h
  ⟨p, hd', hd⟩

section Unique

variable (h : PathForest db) (h' : PathForest db')
include h h'

theorem rightUnique_sameVersion : Relator.RightUnique (SameVersion db db') := by
  rintro v v₁ v₂ ⟨name, hv, hv₁⟩ ⟨name', hv', hv₂⟩
  obtain rfl : name = name' :=
    congrArg VersionRow.name (h.keyed.versionIds.eq_of_id_eq hv hv' rfl)
  exact h'.version_id hv₁ hv₂

theorem rightUnique_sameGroup : Relator.RightUnique (SameGroup db db') := by
  rintro g g₁ g₂ ⟨name, hg, hg₁⟩ ⟨name', hg', hg₂⟩
  obtain rfl : name = name' :=
    congrArg FileGroupRow.name (h.keyed.groupIds.eq_of_id_eq hg hg' rfl)
  exact h'.group_id hg₁ hg₂

theorem rightUnique_sameDefine : Relator.RightUnique (SameDefine db db') := by
  rintro d d₁ d₂ ⟨p, hd, hd₁⟩ ⟨p', hd', hd₂⟩
  obtain rfl := h.hasDefine_path hd hd'
  exact h'.hasDefine_id hd₁ hd₂

theorem biUnique_sameVersion : Relator.BiUnique (SameVersion db db') :=
  ⟨fun _ _ _ hv hv' => rightUnique_sameVersion h' h hv.symm hv'.symm, rightUnique_sameVersion h h'⟩

theorem biUnique_sameGroup : Relator.BiUnique (SameGroup db db') :=
  ⟨fun _ _ _ hg hg' => rightUnique_sameGroup h' h hg.symm hg'.symm, rightUnique_sameGroup h h'⟩

theorem biUnique_sameDefine : Relator.BiUnique (SameDefine db db') :=
  ⟨fun _ _ _ hd hd' => rightUnique_sameDefine h' h hd.symm hd'.symm, rightUnique_sameDefine h h'⟩

theorem pointed_sameVersion : Pointed (SameVersion db db') := fun _ _ ⟨_, hv, hv'⟩ =>
  ⟨ne_of_gt (h.keyed.versionIds.pos _ hv), ne_of_gt (h'.keyed.versionIds.pos _ hv')⟩

theorem pointed_sameGroup : Pointed (SameGroup db db') := fun _ _ ⟨_, hg, hg'⟩ =>
  ⟨ne_of_gt (h.keyed.groupIds.pos _ hg), ne_of_gt (h'.keyed.groupIds.pos _ hg')⟩

theorem pointed_sameDefine : Pointed (SameDefine db db') := fun _ _ ⟨_, hd, hd'⟩ =>
  ⟨ne_of_gt (h.hasDefine_pos hd), ne_of_gt (h'.hasDefine_pos hd')⟩

end Unique

end Same

/-! ### Tables with the same paths -/

/-- The file rows `f` and `f'` stand for the same path, in versions and groups that `V` and `G` put
together. -/
def SameRow (V G : ℤ → ℤ → Prop) (db db' : Database) (f f' : ℤ) : Prop :=
  ∃ v v' g g' p, V v v' ∧ G g g' ∧ db.HasFile v g p f ∧ db'.HasFile v' g' p f'

/-- `V` and `G` match the versions and the groups of two forests, and what they match has the same
paths. -/
structure SamePaths (V G : ℤ → ℤ → Prop) (db db' : Database) : Prop where
  forest : PathForest db
  forest' : PathForest db'
  version : Relator.BiUnique V
  group : Relator.BiUnique G
  paths : ∀ {v v' g g'}, V v v' → G g g' → db.paths v g = db'.paths v' g'
  right : ∀ {v g p}, p ∈ db.paths v g → ∃ v' g', V v v' ∧ G g g'
  left : ∀ {v' g' p}, p ∈ db'.paths v' g' → ∃ v g, V v v' ∧ G g g'
  defined : db.definedPaths = db'.definedPaths

/-- The renaming takes every id to its partner. -/
structure Renaming.Matches (ρ : Renaming) (V G : ℤ → ℤ → Prop) (db db' : Database) : Prop where
  version : ∀ {v v'}, V v v' → ρ.version v = v'
  group : ∀ {g g'}, G g g' → ρ.group g = g'
  define : ρ.define = rename (SameDefine db db')
  file : ρ.file = rename (SameRow V G db db')

section SamePaths

variable {V G : ℤ → ℤ → Prop} {db db' : Database}

theorem SameRow.symm {f f' : ℤ} (h : SameRow V G db db' f f') :
    SameRow (flip V) (flip G) db' db f' f :=
  have ⟨v, v', g, g', p, hv, hg, hf, hf'⟩ := h
  ⟨v', v, g', g, p, hv, hg, hf', hf⟩

variable (h : SamePaths V G db db')
include h

theorem SamePaths.symm : SamePaths (flip V) (flip G) db' db where
  forest := h.forest'
  forest' := h.forest
  version := ⟨fun _ _ _ hv hv' => h.version.2 hv hv', fun _ _ _ hv hv' => h.version.1 hv hv'⟩
  group := ⟨fun _ _ _ hg hg' => h.group.2 hg hg', fun _ _ _ hg hg' => h.group.1 hg hg'⟩
  paths := fun hv hg => (h.paths hv hg).symm
  right := fun hp => h.left hp
  left := fun hp => h.right hp
  defined := h.defined.symm

theorem SamePaths.rightUnique_sameRow : Relator.RightUnique (SameRow V G db db') := by
  rintro f f₁ f₂ ⟨v, v₁, g, g₁, p, hv, hg, hf, hf₁⟩ ⟨_, v₂, _, g₂, _, hv', hg', hf', hf₂⟩
  obtain ⟨rfl, rfl, rfl⟩ := h.forest.hasFile_path hf hf'
  obtain rfl := h.version.2 hv hv'
  obtain rfl := h.group.2 hg hg'
  exact h.forest'.hasFile_id hf₁ hf₂

theorem SamePaths.biUnique_sameRow : Relator.BiUnique (SameRow V G db db') :=
  ⟨fun _ _ _ hf hf' => h.symm.rightUnique_sameRow hf.symm hf'.symm, h.rightUnique_sameRow⟩

theorem SamePaths.pointed_sameRow : Pointed (SameRow V G db db') :=
  fun _ _ ⟨_, _, _, _, _, _, _, hf, hf'⟩ =>
    ⟨ne_of_gt (h.forest.hasFile_pos hf), ne_of_gt (h.forest'.hasFile_pos hf')⟩

/-- Every file row has a partner. -/
theorem SamePaths.exists_sameFile {v g : ℤ} {p : Path} {f : ℤ} (hf : db.HasFile v g p f) :
    ∃ v' g' f', V v v' ∧ G g g' ∧ db'.HasFile v' g' p f' := by
  have hp : p ∈ db.paths v g := ⟨f, hf⟩
  obtain ⟨v', g', hv, hg⟩ := h.right hp
  rw [h.paths hv hg] at hp
  obtain ⟨f', hf'⟩ := hp
  exact ⟨v', g', f', hv, hg, hf'⟩

/-- Every define row has a partner. -/
theorem SamePaths.exists_sameDefine {p : Path} {d : ℤ} (hd : db.HasDefine p d) :
    ∃ d', db'.HasDefine p d' := by
  have hp : p ∈ db.definedPaths := ⟨d, hd⟩
  rwa [h.defined] at hp

/-! ### Rows -/

variable {ρ : Renaming} (hρ : ρ.Matches V G db db')
include hρ

theorem SamePaths.define_zero : ρ.define 0 = 0 := by
  rw [hρ.define]
  exact rename_zero (pointed_sameDefine h.forest h.forest')

theorem SamePaths.file_zero : ρ.file 0 = 0 := by
  rw [hρ.file]
  exact rename_zero h.pointed_sameRow

theorem SamePaths.define_eq {p : Path} {d d' : ℤ} (hd : db.DefineId p d)
    (hd' : db'.DefineId p d') : ρ.define d = d' := by
  rcases hd with ⟨rfl, rfl⟩ | hd
  · rcases hd' with ⟨-, rfl⟩ | hd'
    · exact h.define_zero hρ
    -- the root has no define row
    · exact absurd hd' h.forest'.not_hasDefine_nil
  · rcases hd' with ⟨rfl, -⟩ | hd'
    · exact absurd hd h.forest.not_hasDefine_nil
    · rw [hρ.define]
      exact rename_eq (rightUnique_sameDefine h.forest h.forest') ⟨p, hd, hd'⟩

theorem SamePaths.file_eq {v v' g g' : ℤ} (hv : V v v') (hg : G g g') {p : Path} {f f' : ℤ}
    (hf : db.FileId v g p f) (hf' : db'.FileId v' g' p f') : ρ.file f = f' := by
  rcases hf with ⟨rfl, rfl⟩ | hf
  · rcases hf' with ⟨-, rfl⟩ | hf'
    · exact h.file_zero hρ
    · exact absurd rfl (h.forest'.ne_nil_of_hasFile hf')
  · rcases hf' with ⟨rfl, -⟩ | hf'
    · exact absurd rfl (h.forest.ne_nil_of_hasFile hf)
    · rw [hρ.file]
      exact rename_eq h.rightUnique_sameRow ⟨v, v', g, g', p, hv, hg, hf, hf'⟩

/-- Define rows of the same path. -/
theorem SamePaths.defineRow_eq {row row' : DefineFileRow} (hrow : row ∈ db.defineFiles)
    (hrow' : row' ∈ db'.defineFiles) (hpath : row'.filepath = row.filepath) :
    ρ.defineRow row = row' := by
  obtain ⟨p, c, hs⟩ := h.forest.defineFiles row hrow
  obtain ⟨q, e, hs'⟩ := h.forest'.defineFiles row' hrow'
  have hsame : q ++ [e] = p ++ [c] :=
    renderPath_injective (hs'.filepath.symm.trans (hpath.trans hs.filepath))
  obtain ⟨rfl, rfl⟩ := List.append_singleton_inj.mp hsame
  -- the ids are those of the path, and the parent ids those of its directory
  have hid : ρ.define row.id = row'.id :=
    h.define_eq hρ (Or.inr ⟨row, hrow, hs.filepath, rfl⟩) (Or.inr ⟨row', hrow', hs'.filepath, rfl⟩)
  have hparent := h.define_eq hρ hs.parentId hs'.parentId
  have hname : row.filename = row'.filename := hs.filename.trans hs'.filename.symm
  unfold Renaming.defineRow
  rw [hid, hparent, hname, ← hpath]

/-- File rows of the same path in versions and groups that belong together. -/
theorem SamePaths.link_eq {l l' : FileLink} (hl : l ∈ db.links) (hl' : l' ∈ db'.links)
    (hv : V l.versionId l'.versionId) (hg : G l.fileGroupId l'.fileGroupId)
    (hd : SameDefine db db' l.defineFileId l'.defineFileId) : ρ.link l = l' := by
  obtain ⟨p, c, hs⟩ := h.forest.files l hl
  obtain ⟨q, e, hs'⟩ := h.forest'.files l' hl'
  obtain ⟨r, hr, hr'⟩ := hd
  obtain rfl := h.forest.hasDefine_path hr hs.defineFileId
  have hsame := h.forest'.hasDefine_path hs'.defineFileId hr'
  obtain ⟨rfl, rfl⟩ := List.append_singleton_inj.mp hsame
  have hid : ρ.file l.id = l'.id :=
    h.file_eq hρ hv hg (Or.inr ⟨l, hl, rfl, rfl, hs.defineFileId, rfl⟩)
      (Or.inr ⟨l', hl', rfl, rfl, hs'.defineFileId, rfl⟩)
  have hdefine := h.define_eq hρ (Or.inr hs.defineFileId) (Or.inr hs'.defineFileId)
  have hparent := h.file_eq hρ hv hg hs.parentId hs'.parentId
  unfold Renaming.link
  rw [hid, hρ.version hv, hρ.group hg, hdefine, hparent]

/-- Every file row goes to a file row. -/
theorem SamePaths.exists_link {l : FileLink} (hl : l ∈ db.links) :
    ∃ l' ∈ db'.links, ρ.link l = l' ∧ SameRow V G db db' l.id l'.id := by
  obtain ⟨p, c, hs⟩ := h.forest.files l hl
  have hf : db.HasFile l.versionId l.fileGroupId (p ++ [c]) l.id :=
    ⟨l, hl, rfl, rfl, hs.defineFileId, rfl⟩
  obtain ⟨v', g', f', hv, hg, hf'⟩ := h.exists_sameFile hf
  have hsame : SameRow V G db db' l.id f' := ⟨_, _, _, _, _, hv, hg, hf, hf'⟩
  obtain ⟨l', hl', rfl, rfl, hdefine, rfl⟩ := hf'
  exact ⟨l', hl', h.link_eq hρ hl hl' hv hg ⟨_, hs.defineFileId, hdefine⟩, hsame⟩

theorem SamePaths.file_inj : Set.InjOn ρ.file {f | f = 0 ∨ ∃ f', SameRow V G db db' f f'} := by
  rw [hρ.file]
  exact injOn_rename h.biUnique_sameRow h.pointed_sameRow

/-- The ids of the file rows have partners. -/
theorem SamePaths.mem_domain_of_link {l : FileLink} (hl : l ∈ db.links) :
    l.id ∈ {f | f = 0 ∨ ∃ f', SameRow V G db db' f f'} :=
  have ⟨l', _, _, hsame⟩ := h.exists_link hρ hl
  Or.inr ⟨l'.id, hsame⟩

/-- So have their parent ids. -/
theorem SamePaths.mem_domain_of_parent {l : FileLink} (hl : l ∈ db.links) :
    l.parentId ∈ {f | f = 0 ∨ ∃ f', SameRow V G db db' f f'} := by
  rcases h.forest.closed l hl with hzero | ⟨parent, hparent, hid⟩
  · exact Or.inl hzero
  · exact hid ▸ h.mem_domain_of_link hρ hparent

theorem SamePaths.mem_links_iff {l' : FileLink} :
    l' ∈ db'.links ↔ ∃ l ∈ db.links, ρ.link l = l' := by
  constructor
  · intro hl'
    -- the partner of the row, found from the other side
    obtain ⟨p, c, hs⟩ := h.forest'.files l' hl'
    have hf' : db'.HasFile l'.versionId l'.fileGroupId (p ++ [c]) l'.id :=
      ⟨l', hl', rfl, rfl, hs.defineFileId, rfl⟩
    obtain ⟨v, g, f, hv, hg, hf⟩ := h.symm.exists_sameFile hf'
    obtain ⟨l, hl, rfl, rfl, hdefine, rfl⟩ := hf
    exact ⟨l, hl, h.link_eq hρ hl hl' hv hg ⟨_, hdefine, hs.defineFileId⟩⟩
  · rintro ⟨l, hl, rfl⟩
    obtain ⟨l', hl', hlink, -⟩ := h.exists_link hρ hl
    exact hlink ▸ hl'

theorem SamePaths.links_perm : (db.links.map ρ.link).Perm db'.links := by
  refine map_perm_of_mem_iff h.forest.keyed.fileIds.nodup h.forest'.keyed.fileIds.nodup ?_
    fun l' => h.mem_links_iff hρ
  intro l hl k hk heq
  have hid : ρ.file l.id = ρ.file k.id := congrArg FileLink.id heq
  exact h.forest.keyed.fileIds.eq_of_id_eq hl hk
    (h.file_inj hρ (h.mem_domain_of_link hρ hl) (h.mem_domain_of_link hρ hk) hid)

/-- A file row has as many children as its partner. -/
theorem SamePaths.childCount_eq {l : FileLink} (hl : l ∈ db.links) :
    db'.childCount (ρ.file l.id) = db.childCount l.id := by
  unfold Database.childCount
  rw [← (h.links_perm hρ).countP_eq, List.countP_map]
  -- a child of `l` goes to a child of its partner, and no other row does
  refine List.countP_congr fun k hk => ?_
  simp only [Function.comp_apply, decide_eq_true_eq]
  constructor
  · exact fun heq => h.file_inj hρ (h.mem_domain_of_parent hρ hk) (h.mem_domain_of_link hρ hl) heq
  · exact fun heq => congrArg ρ.file heq

theorem SamePaths.mem_files_iff {row' : FileRow} :
    row' ∈ db'.files ↔ ∃ row ∈ db.files, ρ.fileRow row = row' := by
  -- rows whose links are partners have the same counter
  have hcounter : ∀ row ∈ db.files, ∀ row' ∈ db'.files,
      ρ.link row.toFileLink = row'.toFileLink → ρ.fileRow row = row' := by
    intro row hrow row' hrow' hlink
    have hid : ρ.file row.id = row'.id := congrArg FileLink.id hlink
    have hcount := h.childCount_eq hρ (List.mem_map_of_mem hrow)
    have hamount : row.amountOfChildren = row'.amountOfChildren := by
      rw [h.forest.counted row hrow, h.forest'.counted row' hrow', ← hid, hcount]
    cases row'
    rw [Renaming.fileRow, hlink, hamount]
  constructor
  · intro hrow'
    obtain ⟨l, hl, hlink⟩ :=
      (h.mem_links_iff hρ).mp (List.mem_map_of_mem hrow' : row'.toFileLink ∈ db'.links)
    obtain ⟨row, hrow, rfl⟩ := List.mem_map.mp hl
    exact ⟨row, hrow, hcounter row hrow row' hrow' hlink⟩
  · rintro ⟨row, hrow, rfl⟩
    obtain ⟨row', hrow', hlink⟩ := List.mem_map.mp
      ((h.mem_links_iff hρ).mpr ⟨_, List.mem_map_of_mem hrow, rfl⟩)
    exact hcounter row hrow row' hrow' hlink.symm ▸ hrow'

theorem SamePaths.mem_defineFiles_iff {row' : DefineFileRow} :
    row' ∈ db'.defineFiles ↔ ∃ row ∈ db.defineFiles, ρ.defineRow row = row' := by
  constructor
  · intro hrow'
    obtain ⟨p, c, hs⟩ := h.forest'.defineFiles row' hrow'
    obtain ⟨d, row, hrow, hpath, -⟩ := h.symm.exists_sameDefine ⟨row', hrow', hs.filepath, rfl⟩
    exact ⟨row, hrow, h.defineRow_eq hρ hrow hrow' (hs.filepath.trans hpath.symm)⟩
  · rintro ⟨row, hrow, rfl⟩
    obtain ⟨p, c, hs⟩ := h.forest.defineFiles row hrow
    obtain ⟨d, row', hrow', hpath, -⟩ := h.exists_sameDefine ⟨row, hrow, hs.filepath, rfl⟩
    exact h.defineRow_eq hρ hrow hrow' (hpath.trans hs.filepath.symm) ▸ hrow'

/-- **Equal up to a renaming**, where the versions and the groups are. -/
theorem SamePaths.renames (hversions : (db.versions.map ρ.versionRow).Perm db'.versions)
    (hgroups : (db.fileGroups.map ρ.groupRow).Perm db'.fileGroups)
    (hversion_inj : Set.InjOn ρ.version {v | ∃ row ∈ db.versions, row.id = v})
    (hgroup_inj : Set.InjOn ρ.group {g | ∃ row ∈ db.fileGroups, row.id = g}) :
    ρ.Renames db db' := by
  have hdefine_inj : Set.InjOn ρ.define {d | d = 0 ∨ ∃ row ∈ db.defineFiles, row.id = d} := by
    rw [hρ.define]
    refine (injOn_rename (biUnique_sameDefine h.forest h.forest')
      (pointed_sameDefine h.forest h.forest')).mono ?_
    rintro d (rfl | ⟨row, hrow, rfl⟩)
    · exact Or.inl rfl
    · obtain ⟨p, c, hs⟩ := h.forest.defineFiles row hrow
      have hdefine : db.HasDefine (p ++ [c]) row.id := ⟨row, hrow, hs.filepath, rfl⟩
      obtain ⟨d', hd'⟩ := h.exists_sameDefine hdefine
      exact Or.inr ⟨d', _, hdefine, hd'⟩
  have hfile_inj : Set.InjOn ρ.file {f | f = 0 ∨ ∃ l ∈ db.links, l.id = f} := by
    refine (h.file_inj hρ).mono ?_
    rintro f (rfl | ⟨l, hl, rfl⟩)
    · exact Or.inl rfl
    · exact h.mem_domain_of_link hρ hl
  refine ⟨hversions, hgroups, ?_, ?_, hversion_inj, hgroup_inj, hdefine_inj, hfile_inj,
    h.define_zero hρ, h.file_zero hρ⟩
  -- the same rows on both sides, and none of them twice
  · refine map_perm_of_mem_iff h.forest.keyed.defineFileIds.nodup
      h.forest'.keyed.defineFileIds.nodup (fun r hr s hs heq => ?_)
      fun row' => h.mem_defineFiles_iff hρ
    exact h.forest.keyed.defineFileIds.eq_of_id_eq hr hs
      (hdefine_inj (Or.inr ⟨r, hr, rfl⟩) (Or.inr ⟨s, hs, rfl⟩) (congrArg DefineFileRow.id heq))
  · refine map_perm_of_mem_iff h.forest.keyed.fileIds.nodup.of_map
      h.forest'.keyed.fileIds.nodup.of_map (fun r hr s hs heq => ?_)
      fun row' => h.mem_files_iff hρ
    have hid : ρ.file r.id = ρ.file s.id := congrArg (fun row : FileRow => row.id) heq
    have hsame := hfile_inj (Or.inr ⟨_, List.mem_map_of_mem hr, rfl⟩)
      (Or.inr ⟨_, List.mem_map_of_mem hs, rfl⟩) hid
    have hids := h.forest.keyed.fileIds.nodup_map
    rw [Database.links, List.map_map] at hids
    exact List.inj_on_of_nodup_map hids hr hs hsame

end SamePaths

/-- The renaming that keeps versions and groups. -/
noncomputable def keeping (db db' : Database) : Renaming where
  version := id
  group := id
  define := rename (SameDefine db db')
  file := rename (SameRow Eq Eq db db')

/-- Tables with the same versions and groups, the same paths in each of them and the same define
paths. -/
theorem renames_of_paths {db db' : Database} (h : PathForest db) (h' : PathForest db')
    (hversions : db.versions = db'.versions) (hgroups : db.fileGroups = db'.fileGroups)
    (hpaths : db.paths = db'.paths) (hdefined : db.definedPaths = db'.definedPaths) :
    (keeping db db').Renames db db' := by
  have hunique : Relator.BiUnique (Eq : ℤ → ℤ → Prop) :=
    ⟨fun _ _ _ hv hv' => hv.trans hv'.symm, fun _ _ _ hv hv' => hv.symm.trans hv'⟩
  have hsame : SamePaths Eq Eq db db' :=
    { forest := h
      forest' := h'
      version := hunique
      group := hunique
      paths := fun hv hg => by rw [hv, hg, hpaths]
      right := fun _ => ⟨_, _, rfl, rfl⟩
      left := fun _ => ⟨_, _, rfl, rfl⟩
      defined := hdefined }
  have hmatches : (keeping db db').Matches Eq Eq db db' := ⟨id, id, rfl, rfl⟩
  refine hsame.renames hmatches ?_ ?_ Function.injective_id.injOn Function.injective_id.injOn
  · rw [← hversions]
    exact List.Perm.of_eq (List.map_id db.versions)
  · rw [← hgroups]
    exact List.Perm.of_eq (List.map_id db.fileGroups)

/-! ### Tables with the same contents -/

section SameContents

variable {db db' : Database} (h : Referential db) (h' : Referential db')
  (hcontents : db.contents = db'.contents)
include hcontents

theorem exists_sameVersion {v : ℤ} {name : Bytes} (hv : ⟨v, name⟩ ∈ db.versions) :
    ∃ v', ⟨v', name⟩ ∈ db'.versions ∧ SameVersion db db' v v' := by
  have hname : name ∈ db.contents.versions := ⟨v, hv⟩
  rw [hcontents] at hname
  obtain ⟨v', hv'⟩ := hname
  exact ⟨v', hv', name, hv, hv'⟩

theorem exists_sameGroup {g : ℤ} {name : Bytes} (hg : ⟨g, name⟩ ∈ db.fileGroups) :
    ∃ g', ⟨g', name⟩ ∈ db'.fileGroups ∧ SameGroup db db' g g' := by
  have hname : name ∈ db.contents.groups := ⟨g, hg⟩
  rw [hcontents] at hname
  obtain ⟨g', hg'⟩ := hname
  exact ⟨g', hg', name, hg, hg'⟩

theorem mem_versions_iff (h : PathForest db) (h' : PathForest db') {row' : VersionRow} :
    row' ∈ db'.versions ↔ ∃ row ∈ db.versions, (matching db db').versionRow row = row' := by
  have hrename : ∀ {v v' name}, SameVersion db db' v v' →
      (matching db db').versionRow ⟨v, name⟩ = ⟨v', name⟩ := fun hv =>
    congrArg (VersionRow.mk · _) (rename_eq (rightUnique_sameVersion h h') hv)
  constructor
  · intro hrow'
    obtain ⟨v, hv, hsame⟩ := exists_sameVersion hcontents.symm hrow'
    exact ⟨_, hv, hrename hsame.symm⟩
  · rintro ⟨row, hrow, rfl⟩
    obtain ⟨v', hv', hsame⟩ := exists_sameVersion hcontents hrow
    exact hrename hsame ▸ hv'

theorem mem_fileGroups_iff (h : PathForest db) (h' : PathForest db') {row' : FileGroupRow} :
    row' ∈ db'.fileGroups ↔ ∃ row ∈ db.fileGroups, (matching db db').groupRow row = row' := by
  have hrename : ∀ {g g' name}, SameGroup db db' g g' →
      (matching db db').groupRow ⟨g, name⟩ = ⟨g', name⟩ := fun hg =>
    congrArg (FileGroupRow.mk · _) (rename_eq (rightUnique_sameGroup h h') hg)
  constructor
  · intro hrow'
    obtain ⟨g, hg, hsame⟩ := exists_sameGroup hcontents.symm hrow'
    exact ⟨_, hg, hrename hsame.symm⟩
  · rintro ⟨row, hrow, rfl⟩
    obtain ⟨g', hg', hsame⟩ := exists_sameGroup hcontents hrow
    exact hrename hsame ▸ hg'

include h h'

/-- A version and a group have the same paths under their other ids. -/
theorem paths_eq_of_same {v v' g g' : ℤ} (hv : SameVersion db db' v v')
    (hg : SameGroup db db' g g') : db.paths v g = db'.paths v' g' := by
  obtain ⟨version, hv, hv'⟩ := hv
  obtain ⟨group, hg, hg'⟩ := hg
  ext p
  rw [← h.mem_contents_iff hv hg, hcontents, h'.mem_contents_iff hv' hg']

omit h' in
/-- A version and a group with paths have other ids. -/
theorem exists_same {v g : ℤ} {p : Path} (hp : p ∈ db.paths v g) :
    ∃ v' g', SameVersion db db' v v' ∧ SameGroup db db' g g' := by
  obtain ⟨version, hv⟩ := h.version hp
  obtain ⟨group, hg⟩ := h.group hp
  obtain ⟨v', -, hsameVersion⟩ := exists_sameVersion hcontents hv
  obtain ⟨g', -, hsameGroup⟩ := exists_sameGroup hcontents hg
  exact ⟨v', g', hsameVersion, hsameGroup⟩

/-- A path with a define row is a path of some version and group. -/
theorem definedPaths_subset : db.definedPaths ⊆ db'.definedPaths := by
  intro p hp
  obtain ⟨v, g, hp⟩ := h.defined p hp
  obtain ⟨v', g', hv, hg⟩ := exists_same h hcontents hp
  rw [paths_eq_of_same h h' hcontents hv hg] at hp
  obtain ⟨f', l, -, -, -, hdefine, -⟩ := hp
  exact ⟨l.defineFileId, hdefine⟩

theorem samePaths_of_contents : SamePaths (SameVersion db db') (SameGroup db db') db db' where
  forest := h.forest
  forest' := h'.forest
  version := biUnique_sameVersion h.forest h'.forest
  group := biUnique_sameGroup h.forest h'.forest
  paths := paths_eq_of_same h h' hcontents
  right := exists_same h hcontents
  left := fun hp =>
    have ⟨v, g, hv, hg⟩ := exists_same h' hcontents.symm hp
    ⟨v, g, hv.symm, hg.symm⟩
  defined := Set.Subset.antisymm (definedPaths_subset h h' hcontents)
    (definedPaths_subset h' h hcontents.symm)

/-- **Equal up to a renaming.** Tables with the same contents are renamings of each other. -/
theorem renames_of_contents : (matching db db').Renames db db' := by
  have hmatches : (matching db db').Matches (SameVersion db db') (SameGroup db db') db db' :=
    ⟨rename_eq (rightUnique_sameVersion h.forest h'.forest),
      rename_eq (rightUnique_sameGroup h.forest h'.forest), rfl, rfl⟩
  have hversion_inj :
      Set.InjOn (matching db db').version {v | ∃ row ∈ db.versions, row.id = v} := by
    refine (injOn_rename (biUnique_sameVersion h.forest h'.forest)
      (pointed_sameVersion h.forest h'.forest)).mono ?_
    rintro v ⟨row, hrow, rfl⟩
    obtain ⟨v', -, hsame⟩ := exists_sameVersion hcontents hrow
    exact Or.inr ⟨v', hsame⟩
  have hgroup_inj : Set.InjOn (matching db db').group {g | ∃ row ∈ db.fileGroups, row.id = g} := by
    refine (injOn_rename (biUnique_sameGroup h.forest h'.forest)
      (pointed_sameGroup h.forest h'.forest)).mono ?_
    rintro g ⟨row, hrow, rfl⟩
    obtain ⟨g', -, hsame⟩ := exists_sameGroup hcontents hrow
    exact Or.inr ⟨g', hsame⟩
  refine (samePaths_of_contents h h' hcontents).renames hmatches ?_ ?_ hversion_inj hgroup_inj
  · refine map_perm_of_mem_iff h.forest.keyed.versionIds.nodup h'.forest.keyed.versionIds.nodup
      (fun r hr s hs heq => ?_) fun row' => mem_versions_iff hcontents h.forest h'.forest
    exact h.forest.keyed.versionIds.eq_of_id_eq hr hs
      (hversion_inj ⟨r, hr, rfl⟩ ⟨s, hs, rfl⟩ (congrArg VersionRow.id heq))
  · refine map_perm_of_mem_iff h.forest.keyed.groupIds.nodup h'.forest.keyed.groupIds.nodup
      (fun r hr s hs heq => ?_) fun row' => mem_fileGroups_iff hcontents h.forest h'.forest
    exact h.forest.keyed.groupIds.eq_of_id_eq hr hs
      (hgroup_inj ⟨r, hr, rfl⟩ ⟨s, hs, rfl⟩ (congrArg FileGroupRow.id heq))

end SameContents

end WebDiff
