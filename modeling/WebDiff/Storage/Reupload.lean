import WebDiff.Storage.Contents
import WebDiff.Storage.Footprint

/-!
# Uploading what is there

An upload of paths that are stored already only looks things up (`readsOnly_addFiles`): it writes
neither `webdiff_define_files` nor `webdiff_files` (`upload_stored_writes_nothing`).
-/

namespace WebDiff

open Program Table

/-- The `INSERT` and `UPDATE` statements on `webdiff_define_files` and `webdiff_files`. -/
def Op.writesFiles : Op → Bool
  | .sql (.insertDefineFile _ _ _) => true
  | .sql (.insertFile _ _ _ _) => true
  | .sql (.updateAmountOfChildren _ _) => true
  | _ => false

/-- The program executes no statement, so it leaves the tables as they are. -/
structure ReadsOnly (my : MySql) {α : Type} (p : Storage α) (db : Database) : Prop where
  tables : (run (Database.step my) p db).2 = db
  operations : ∀ x ∈ trace (Database.step my) p db, x.1.isSql = false

section ReadsOnly

variable {my : MySql} {db : Database}

theorem ReadsOnly.pure {α : Type} (a : α) : ReadsOnly my (Pure.pure a : Storage α) db :=
  ⟨rfl, fun _ hx => absurd hx List.not_mem_nil⟩

theorem ReadsOnly.bind {α β : Type} {p : Storage α} {f : α → Storage β} (hp : ReadsOnly my p db)
    (hf : ReadsOnly my (f (run (Database.step my) p db).1) db) : ReadsOnly my (p >>= f) db := by
  refine ⟨?_, fun x hx => ?_⟩
  · rw [run_bind, hp.tables]
    exact hf.tables
  · rw [trace_bind, hp.tables, List.mem_append] at hx
    exact hx.elim (hp.operations x) (hf.operations x)

/-- A statement that is not executed writes nothing. -/
theorem Op.writesFiles_of_isSql {o : Op} (h : o.isSql = false) : o.writesFiles = false := by
  cases o with
  | sql s => cases h
  | _ => rfl

variable (h : PathForest db)
include h

/-- The define id of a path that has one. -/
theorem PathForest.readsOnly_findDefineFileIdOrCreate (my : MySql) {p : Path} {d : ℤ}
    (hd : db.HasDefine p d) (name : Bytes) (parent : ℤ) :
    ReadsOnly my (findDefineFileIdOrCreate (renderPath p) name parent) db ∧
      (run (Database.step my) (findDefineFileIdOrCreate (renderPath p) name parent) db).1 = d := by
  obtain ⟨row, hrow, hpath, rfl⟩ := hd
  have hfind : db.defineFiles.find? (fun row => row.filepath = renderPath p) = some row :=
    (find?_key_eq_some_iff h.keyed.filepaths _ _).mpr ⟨hrow, hpath⟩
  unfold findDefineFileIdOrCreate Op.perform
  refine ⟨⟨?_, ?_⟩, ?_⟩
  all_goals simp [Database.step, hfind, Op.isSql]

/-- The file id of a path that has one. -/
theorem PathForest.readsOnly_findFileOrCreate (my : MySql) {v g : ℤ} {p : Path} {d f : ℤ}
    (hd : db.HasDefine p d) (hf : db.HasFile v g p f) (parent : ℤ) :
    ReadsOnly my (findFileOrCreate v g d parent) db ∧
      (run (Database.step my) (findFileOrCreate v g d parent) db).1 = f := by
  obtain ⟨l, hl, rfl, rfl, hdefine, rfl⟩ := hf
  obtain rfl := h.hasDefine_id hd hdefine
  have hfind : db.links.find? (fun row =>
      row.key = (l.versionId, l.fileGroupId, l.defineFileId)) = some l :=
    (find?_key_eq_some_iff h.keyed.fileKeys _ _).mpr ⟨hl, rfl⟩
  have hne : l.id ≠ -1 := by
    have hpos := h.keyed.fileIds.pos l hl
    omega
  unfold findFileOrCreate createFileIfAbsent Op.perform
  refine ⟨⟨?_, ?_⟩, ?_⟩
  all_goals simp [Database.step, hfind, hne, Op.isSql]

/-- The directories on the way to a stored path are stored. -/
theorem PathForest.paths_of_prefix {v g : ℤ} {p q : Path} (hp : p ∈ db.paths v g) (hq : q ≠ [])
    (hpre : q <+: p) : q ∈ db.paths v g := by
  induction p using List.reverseRecOn with
  | nil => exact absurd (List.prefix_nil.mp hpre) hq
  | append_singleton p c ih =>
    rcases List.prefix_concat_iff.mp hpre with rfl | hpre
    · exact hp
    · have hne : p ≠ [] := fun hnil => hq (List.prefix_nil.mp (hnil ▸ hpre))
      exact ih (h.paths_prefix hne hp) hpre

/-- The loop of `addFile` over a path that is stored. -/
theorem PathForest.readsOnly_addFileLoop (my : MySql) {v g : ℤ} (names : Path) {p : Path} {d f : ℤ}
    (hd : db.DefineId p d) (hf : db.FileId v g p f)
    (hstored : names ≠ [] → p ++ names ∈ db.paths v g) :
    ReadsOnly my (addFileLoop v g (names.map Subtype.val) (renderPath p) d f) db := by
  induction names generalizing p d f with
  | nil => exact ReadsOnly.pure ()
  | cons c rest ih =>
    have hpath : p ++ [c] ++ rest ∈ db.paths v g := by
      simpa using hstored (List.cons_ne_nil _ _)
    -- the directory of the round is stored as well, so both lookups hit
    obtain ⟨f', hf'⟩ := h.paths_of_prefix hpath
      (List.append_ne_nil_of_right_ne_nil _ (List.cons_ne_nil _ _)) (List.prefix_append _ _)
    have hd' : ∃ d', db.HasDefine (p ++ [c]) d' :=
      have ⟨l, _, _, _, hdefine, _⟩ := hf'
      ⟨l.defineFileId, hdefine⟩
    obtain ⟨d', hd'⟩ := hd'
    rw [List.map_cons, addFileLoop, if_neg c.property.1, ← renderPath_concat]
    obtain ⟨hreads, hdefine⟩ := h.readsOnly_findDefineFileIdOrCreate my hd' c.val d
    refine hreads.bind ?_
    rw [hdefine]
    obtain ⟨hreads', hfile⟩ := h.readsOnly_findFileOrCreate my hd' hf' f
    refine hreads'.bind ?_
    rw [hfile]
    exact ih (Or.inr hd') (Or.inr hf') fun _ => hpath

theorem PathForest.readsOnly_addFiles (my : MySql) {v g : ℤ} {files : List FileInfo}
    (hstored : ∀ file ∈ files, file.path ≠ [] → file.path ∈ db.paths v g) :
    ReadsOnly my (addFiles v g files) db := by
  induction files with
  | nil => exact ReadsOnly.pure ()
  | cons file rest ih =>
    have hfile : ReadsOnly my (addFile v g file) db := by
      rw [addFile_eq]
      exact h.readsOnly_addFileLoop my file.path (Or.inl ⟨rfl, rfl⟩) (Or.inl ⟨rfl, rfl⟩)
        (hstored file List.mem_cons_self)
    exact hfile.bind (ih fun file hmem => hstored file (List.mem_cons_of_mem _ hmem))

end ReadsOnly

/-! ### Requests -/

/-- **Uploading again.** A request whose paths are stored already, or are directories on the way to
stored paths, writes no define row and no file row. -/
theorem upload_stored_writes_nothing (my : MySql) {db : Database} {reqs : List AddRequest}
    (hist : History db reqs) {req : AddRequest}
    (hstored : ∀ file ∈ req.files, file.path ≠ [] →
      file.path ∈ (requestContents reqs).paths req.version req.group) :
    ∀ x ∈ trace (Database.step my) (upload req) db, x.1.writesFiles = false := by
  obtain ⟨hversion, hv⟩ := stores_findVersionOrCreate my hist.forest req.version
  obtain ⟨hgroup, hg⟩ := stores_findGroupOrCreate my hversion.forest req.group
  have hstores := hversion.trans hgroup
  -- the lookups of the version and of the group write no file
  have hlookup : (findVersionOrCreate req.version).Uses (fun o => o.writesFiles = false) ∧
      (findGroupOrCreate req.group).Uses fun o => o.writesFiles = false :=
    ⟨uses_findVersionOrCreate rfl rfl fun _ => rfl, uses_findGroupOrCreate rfl rfl fun _ => rfl⟩
  unfold upload
  simp only [trace_bind, trace_pure, List.append_nil, List.mem_append]
  rintro x (hx | hx | hx)
  · exact hlookup.1.trace _ _ x hx
  · exact hlookup.2.trace _ _ x hx
  · refine Op.writesFiles_of_isSql ((hstores.forest.readsOnly_addFiles my ?_).operations x hx)
    intro file hfile hne
    -- the path is stored under the ids the request found
    have hmem := hstored file hfile hne
    rw [← hist.contents_eq] at hmem
    obtain ⟨v, g, hv', hg', hp⟩ := hmem
    rw [hstores.paths, bot_sup_eq, sup_bot_eq]
    rwa [← hstores.forest.version_id (hstores.grows.versions hv') (hgroup.grows.versions hv),
      ← hstores.forest.group_id (hstores.grows.fileGroups hg') hg]

end WebDiff
