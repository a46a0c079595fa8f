import Mathlib.Order.ConditionallyCompleteLattice.Basic
import WebDiff.Storage.PathForest

/-!
# What uploads store

The purpose of the storage, stated without ids: under every version and group it keeps a set of
paths, and an upload adds to one of these sets the uploaded paths together with the directories on
the way to them. `Stores` says that a run of the storage does this to the tables and keeps them a
forest; the functions of the upload path are shown to do so one after another, with the two ids the
loop of `addFile` carries as its invariant (`stores_addFileLoop`).
-/

namespace WebDiff

open Program Table

/-! ### Sets of paths under versions and groups -/

/-- The sets of paths of all versions and groups. -/
abbrev PathStore := ℤ → ℤ → Set Path

/-- The given paths in one version and group. -/
def PathStore.single (v g : ℤ) (ps : Set Path) : PathStore :=
  fun v' g' => {p | v' = v ∧ g' = g ∧ p ∈ ps}

/-- A path and the directories on the way to it. -/
def Path.prefixes (p : Path) : Set Path :=
  {q | q ≠ [] ∧ q <+: p}

/-- What uploading the files stores. -/
def filesPaths (files : List FileInfo) : Set Path :=
  {q | ∃ file ∈ files, q ∈ Path.prefixes file.path}

theorem PathStore.single_sup (v g : ℤ) (ps qs : Set Path) :
    single v g ps ⊔ single v g qs = single v g (ps ∪ qs) := by
  funext v' g'
  ext p
  simp only [single, Pi.sup_apply, Set.sup_eq_union, Set.mem_union, Set.mem_ofPred_eq]
  tauto

theorem PathStore.single_empty (v g : ℤ) : single v g ∅ = ⊥ := by
  funext v' g'
  ext p
  simp [single]

/-- The run that made `db'` out of `db` stored the paths `new`. -/
structure Stores (db : Database) (new : PathStore) (db' : Database) : Prop where
  forest : PathForest db'
  grows : db.Grows db'
  paths : db'.paths = db.paths ⊔ new
  defined : db'.definedPaths ⊆ db.definedPaths ∪ {p | ∃ v g, p ∈ new v g}

/-- The run that made `db'` out of `db` gave the path `p` a define row, if it had none. -/
structure Defines (db : Database) (p : Path) (db' : Database) : Prop where
  forest : PathForest db'
  grows : db.Grows db'
  paths : db'.paths = db.paths
  defined : db'.definedPaths ⊆ insert p db.definedPaths

theorem Stores.refl {db : Database} (h : PathForest db) : Stores db ⊥ db :=
  ⟨h, Database.Grows.refl db, (sup_bot_eq _).symm, Set.subset_union_left⟩

theorem Stores.trans {db db' db'' : Database} {new new' : PathStore} (h : Stores db new db')
    (h' : Stores db' new' db'') : Stores db (new ⊔ new') db'' := by
  refine ⟨h'.forest, h.grows.trans h'.grows, by rw [h'.paths, h.paths, sup_assoc], ?_⟩
  intro p hp
  rcases h'.defined hp with hp | ⟨v, g, hp⟩
  · exact (h.defined hp).imp_right fun ⟨v, g, hp⟩ => ⟨v, g, Or.inl hp⟩
  · exact Or.inr ⟨v, g, Or.inr hp⟩

/-- A define row for a path that is stored next. -/
theorem Defines.trans {db db' db'' : Database} {p : Path} {new : PathStore} (h : Defines db p db')
    (h' : Stores db' new db'') {v g : ℤ} (hp : p ∈ new v g) : Stores db new db'' := by
  refine ⟨h'.forest, h.grows.trans h'.grows, by rw [h'.paths, h.paths], ?_⟩
  intro q hq
  rcases h'.defined hq with hq | hq
  · rcases h.defined hq with rfl | hq
    · exact Or.inr ⟨v, g, hp⟩
    · exact Or.inl hq
  · exact Or.inr hq

/-- Paths that are there already may be counted as stored. -/
theorem Stores.of_mem {db : Database} (h : PathForest db) {v g : ℤ} {p : Path}
    (hp : p ∈ db.paths v g) : Stores db (.single v g {p}) db := by
  refine ⟨h, Database.Grows.refl db, (sup_eq_left.mpr ?_).symm, Set.subset_union_left⟩
  rintro v' g' q ⟨rfl, rfl, rfl⟩
  exact hp

/-- Without new file rows the paths are the same. -/
theorem paths_eq_of_links {db db' : Database} (h : PathForest db) (h' : PathForest db')
    (hgrows : db.Grows db') (hlinks : db'.links = db.links) : db'.paths = db.paths := by
  funext v g
  ext p
  constructor
  · rintro ⟨f, l, hl, hv, hg, hdefine, hid⟩
    rw [hlinks] at hl
    exact ⟨f, l, hl, hv, hg, h.hasFile_of_grows hgrows h' hl hdefine, hid⟩
  · rintro ⟨f, hf⟩
    exact ⟨f, hf.mono hgrows⟩

/-- A run that leaves the paths and files alone stores nothing. -/
theorem stores_bot {db db' : Database} (h : PathForest db) (h' : PathForest db')
    (hgrows : db.Grows db') (hdefine : db'.defineFiles = db.defineFiles)
    (hlinks : db'.links = db.links) : Stores db ⊥ db' := by
  refine ⟨h', hgrows, by rw [sup_bot_eq, paths_eq_of_links h h' hgrows hlinks], ?_⟩
  rintro p ⟨d, row, hrow, hd⟩
  exact Or.inl ⟨d, row, hdefine ▸ hrow, hd⟩

/-! ### The find-or-create functions -/

section FindOrCreate

variable (my : MySql) {db : Database} (h : PathForest db)
include h

theorem stores_findVersionOrCreate (version : Bytes) :
    Stores db ⊥ (run (Database.step my) (findVersionOrCreate version) db).2 ∧
      ⟨(run (Database.step my) (findVersionOrCreate version) db).1.id, version⟩
        ∈ (run (Database.step my) (findVersionOrCreate version) db).2.versions := by
  unfold findVersionOrCreate insertVersion sql Op.perform
  simp only [run_bind, run_perform, Database.step]
  cases hf : (db.versions.map VersionRow.toModel).find? (fun ver => ver.name = version) with
  | some ver =>
    obtain ⟨row, hrow, rfl⟩ := List.mem_map.mp (List.mem_of_find?_eq_some hf)
    have hname : row.toModel.name = version := by
      simpa only [decide_eq_true_eq] using List.find?_some hf
    exact ⟨Stores.refl h, hname ▸ hrow⟩
  | none =>
    have hnew : ∀ row ∈ db.versions, row.name ≠ version := by
      simpa using List.find?_eq_none.mp hf
    exact ⟨stores_bot h (h.insertVersion hnew) ⟨fun _ hx => List.mem_append_left _ hx,
      fun _ hx => hx, fun _ hx => hx, fun _ hx => hx⟩ rfl rfl,
      List.mem_append_right _ (List.mem_singleton.mpr rfl)⟩

theorem stores_findGroupOrCreate (group : Bytes) :
    Stores db ⊥ (run (Database.step my) (findGroupOrCreate group) db).2 ∧
      ⟨(run (Database.step my) (findGroupOrCreate group) db).1.id, group⟩
        ∈ (run (Database.step my) (findGroupOrCreate group) db).2.fileGroups := by
  unfold findGroupOrCreate insertGroup sql Op.perform
  simp only [run_bind, run_perform, Database.step]
  cases hf : (db.fileGroups.map FileGroupRow.toModel).find? (fun gr => gr.title = group) with
  | some gr =>
    obtain ⟨row, hrow, rfl⟩ := List.mem_map.mp (List.mem_of_find?_eq_some hf)
    have hname : row.toModel.title = group := by
      simpa only [decide_eq_true_eq] using List.find?_some hf
    exact ⟨Stores.refl h, hname ▸ hrow⟩
  | none =>
    have hnew : ∀ row ∈ db.fileGroups, row.name ≠ group := by
      simpa using List.find?_eq_none.mp hf
    exact ⟨stores_bot h (h.insertGroup hnew) ⟨fun _ hx => hx,
      fun _ hx => List.mem_append_left _ hx, fun _ hx => hx, fun _ hx => hx⟩ rfl rfl,
      List.mem_append_right _ (List.mem_singleton.mpr rfl)⟩

/-- A new define row gives its path an id. -/
theorem defines_insertDefineFile {p : Path} {c : Component} {d : ℤ} (hd : db.DefineId p d)
    (hnew : ∀ row ∈ db.defineFiles, row.filepath ≠ renderPath (p ++ [c])) :
    Defines db (p ++ [c]) ((Sql.insertDefineFile (renderPath (p ++ [c])) c.val d).exec my db).2 ∧
      ((Sql.insertDefineFile (renderPath (p ++ [c])) c.val d).exec my db).2.HasDefine (p ++ [c])
        (my.nextId .defineFiles DefineFileRow.id db.defineFiles) := by
  have hgrows := grows_insertDefineFile my db (renderPath (p ++ [c])) c.val d
  have hforest := h.insertDefineFile my hd hnew
  refine ⟨⟨hforest, hgrows, paths_eq_of_links h hforest hgrows rfl, ?_⟩,
    _, List.mem_append_right _ (List.mem_singleton.mpr rfl), rfl, rfl⟩
  -- a path with an id had one before, or is the new one
  rintro q ⟨e, row, hrow, hpath, rfl⟩
  rcases List.mem_append.mp hrow with hrow | hrow
  · exact Or.inr ⟨row.id, row, hrow, hpath, rfl⟩
  · obtain rfl := List.mem_singleton.mp hrow
    exact Or.inl (renderPath_injective hpath.symm)

/-- The define id of one more component. -/
theorem defines_findDefineFileIdOrCreate {p : Path} {c : Component} {d : ℤ}
    (hd : db.DefineId p d) :
    Defines db (p ++ [c]) (run (Database.step my)
        (findDefineFileIdOrCreate (renderPath (p ++ [c])) c.val d) db).2 ∧
      (run (Database.step my)
        (findDefineFileIdOrCreate (renderPath (p ++ [c])) c.val d) db).2.HasDefine (p ++ [c])
        (run (Database.step my)
          (findDefineFileIdOrCreate (renderPath (p ++ [c])) c.val d) db).1 := by
  unfold findDefineFileIdOrCreate WebDiff.insertDefineFile sql Op.perform
  simp only [run_bind, run_perform, Database.step]
  cases hf : db.defineFiles.find? (fun row => row.filepath = renderPath (p ++ [c])) with
  | some row =>
    obtain ⟨hrow, hpath⟩ := (find?_key_eq_some_iff h.keyed.filepaths _ _).mp hf
    exact ⟨⟨h, Database.Grows.refl db, rfl, Set.subset_insert _ _⟩, row, hrow, hpath, rfl⟩
  | none =>
    have hnew := (find?_key_eq_none_iff _).mp hf
    exact defines_insertDefineFile my h hd hnew

/-- A new file row adds its path. -/
theorem stores_insertFile {v g d f : ℤ} {p : Path} {c : Component}
    (hd : db.HasDefine (p ++ [c]) d) (hf : db.FileId v g p f)
    (hnew : ∀ row ∈ db.links, row.key ≠ (v, g, d)) :
    Stores db (.single v g {p ++ [c]})
        (run (Database.step my) (WebDiff.insertFile v g d f) db).2 ∧
      (run (Database.step my) (WebDiff.insertFile v g d f) db).2.HasFile v g (p ++ [c])
        (run (Database.step my) (WebDiff.insertFile v g d f) db).1 := by
  have hgrows := grows_run_insertFile my db v g d f
  have hlinks := links_run_insertFile my db v g d f
  have hforest := h.insertFile my hd hf hnew
  have hfile : (run (Database.step my) (WebDiff.insertFile v g d f) db).2.HasFile v g (p ++ [c])
      (run (Database.step my) (WebDiff.insertFile v g d f) db).1 :=
    ⟨_, hlinks ▸ List.mem_append_right _ (List.mem_singleton.mpr rfl), rfl, rfl,
      hd.mono hgrows, rfl⟩
  refine ⟨⟨hforest, hgrows, ?_, fun q hq => Or.inl hq⟩, hfile⟩
  funext v' g'
  ext q
  -- the paths of the new links are those of the old ones and the one of the new row
  constructor
  · rintro ⟨x, l, hl, rfl, rfl, hdefine, rfl⟩
    rw [hlinks] at hl
    rcases List.mem_append.mp hl with hl | hl
    · exact Or.inl ⟨_, l, hl, rfl, rfl, h.hasFile_of_grows hgrows hforest hl hdefine, rfl⟩
    · obtain rfl := List.mem_singleton.mp hl
      exact Or.inr ⟨rfl, rfl, hforest.hasDefine_path hdefine (hd.mono hgrows)⟩
  · rintro (⟨x, hx⟩ | ⟨rfl, rfl, rfl⟩)
    · exact ⟨x, hx.mono hgrows⟩
    · exact ⟨_, hfile⟩

/-- The file id of one more component. -/
theorem stores_findFileOrCreate {v g d f : ℤ} {p : Path} {c : Component}
    (hd : db.HasDefine (p ++ [c]) d) (hf : db.FileId v g p f) :
    Stores db (.single v g {p ++ [c]})
        (run (Database.step my) (findFileOrCreate v g d f) db).2 ∧
      (run (Database.step my) (findFileOrCreate v g d f) db).2.HasFile v g (p ++ [c])
        (run (Database.step my) (findFileOrCreate v g d f) db).1 := by
  unfold findFileOrCreate Op.perform
  simp only [run_bind, run_perform, Database.step]
  cases hl : db.links.find? (fun row => row.key = (v, g, d)) with
  | some l =>
    obtain ⟨hmem, hkey⟩ := (find?_key_eq_some_iff h.keyed.fileKeys _ _).mp hl
    -- the id of a row is never the `-1` of a miss
    have hpos := h.keyed.fileIds.pos l hmem
    have hne : l.id ≠ -1 := by omega
    simp only [FileLink.key, Prod.mk.injEq] at hkey
    obtain ⟨rfl, rfl, rfl⟩ := hkey
    have hfile : db.HasFile l.versionId l.fileGroupId (p ++ [c]) l.id :=
      ⟨l, hmem, rfl, rfl, hd, rfl⟩
    simp only [Option.map_some, Option.getD_some, createFileIfAbsent, if_pos hne, run_pure]
    exact ⟨Stores.of_mem h ⟨l.id, hfile⟩, hfile⟩
  | none =>
    have hnew := (find?_key_eq_none_iff _).mp hl
    exact stores_insertFile my h hd hf hnew

end FindOrCreate

/-! ### Files -/

/-- The loop of `addFile`, with the path `p` read so far: its two ids are those of `p`. -/
theorem stores_addFileLoop (my : MySql) {db : Database} (h : PathForest db) (v g : ℤ) (names : Path)
    {p : Path} {d f : ℤ} (hd : db.DefineId p d) (hf : db.FileId v g p f) :
    Stores db (.single v g {q | ∃ r ∈ Path.prefixes names, q = p ++ r})
      (run (Database.step my)
        (addFileLoop v g (names.map Subtype.val) (renderPath p) d f) db).2 := by
  induction names generalizing db p d f with
  | nil =>
    have hempty : {q : Path | ∃ r ∈ Path.prefixes [], q = p ++ r} = ∅ := by
      ext q
      simp [Path.prefixes]
    rw [hempty, PathStore.single_empty]
    exact Stores.refl h
  | cons c rest ih =>
    -- the non-empty prefixes are the first component, and those of the rest behind it
    have hsplit : {q : Path | ∃ r ∈ Path.prefixes (c :: rest), q = p ++ r}
        = {p ++ [c]} ∪ {q | ∃ r ∈ Path.prefixes rest, q = p ++ [c] ++ r} := by
      ext q
      simp only [Path.prefixes, Set.mem_ofPred_eq, Set.mem_union, Set.mem_singleton_iff]
      constructor
      · rintro ⟨r, ⟨hr, hpre⟩, rfl⟩
        obtain ⟨e, r, rfl⟩ := List.exists_cons_of_ne_nil hr
        obtain ⟨rfl, htail⟩ := List.cons_prefix_cons.mp hpre
        by_cases hnil : r = []
        · exact Or.inl (by rw [hnil])
        · exact Or.inr ⟨r, ⟨hnil, htail⟩, by simp⟩
      · rintro (rfl | ⟨r, ⟨hr, hpre⟩, rfl⟩)
        · exact ⟨[c], ⟨List.cons_ne_nil _ _, by simp⟩, rfl⟩
        · exact ⟨c :: r, ⟨List.cons_ne_nil _ _, List.cons_prefix_cons.mpr ⟨rfl, hpre⟩⟩, by simp⟩
    rw [List.map_cons, addFileLoop, if_neg c.property.1, ← renderPath_concat]
    simp only [run_bind]
    -- one round, and the rest from the ids it found
    obtain ⟨hdefines, hdefine⟩ := defines_findDefineFileIdOrCreate my h hd
    obtain ⟨hstores, hfile⟩ :=
      stores_findFileOrCreate my hdefines.forest hdefine (hf.mono hdefines.grows)
    have hrest := ih hstores.forest (Or.inr (hdefine.mono hstores.grows)) (Or.inr hfile)
    have hall := (hdefines.trans hstores ⟨rfl, rfl, rfl⟩).trans hrest
    rwa [PathStore.single_sup, ← hsplit] at hall

theorem stores_addFile (my : MySql) {db : Database} (h : PathForest db) (v g : ℤ)
    (file : FileInfo) :
    Stores db (.single v g (Path.prefixes file.path))
      (run (Database.step my) (addFile v g file) db).2 := by
  have hdefine : db.DefineId [] 0 := Or.inl ⟨rfl, rfl⟩
  have hfile : db.FileId v g [] 0 := Or.inl ⟨rfl, rfl⟩
  have hloop := stores_addFileLoop my h v g file.path hdefine hfile
  simpa [addFile_eq] using hloop

theorem stores_addFiles (my : MySql) {db : Database} (h : PathForest db) (v g : ℤ)
    (files : List FileInfo) :
    Stores db (.single v g (filesPaths files))
      (run (Database.step my) (addFiles v g files) db).2 := by
  induction files generalizing db with
  | nil =>
    have hempty : filesPaths [] = ∅ := by
      ext q
      simp [filesPaths]
    rw [hempty, PathStore.single_empty]
    exact Stores.refl h
  | cons file rest ih =>
    have hsplit : filesPaths (file :: rest) = Path.prefixes file.path ∪ filesPaths rest := by
      ext q
      simp [filesPaths]
    have hfile := stores_addFile my h v g file
    have hall := hfile.trans (ih hfile.forest)
    rw [PathStore.single_sup, ← hsplit] at hall
    rw [addFiles, run_bind]
    exact hall

end WebDiff
