import WebDiff.Storage.Footprint
import WebDiff.Storage.Uploads

/-!
# Histories

What the tables hold after any sequence of calls, or of requests, in terms of that sequence:
`paths_reached` for calls that name versions and groups by id, and `History` for requests that name
them by name. The first gives the invariant of the two tables as a whole (`reached_forest`).
-/

namespace WebDiff

open Program Table

/-! ### Sequences of calls -/

/-- The server after a sequence of calls none of which fails. -/
def reached (my : MySql) (calls : List Call) : World :=
  calls.foldl (fun w c => (run (World.step my) c.program w).2) World.empty

/-- The paths a sequence of calls uploads. -/
def callPaths (calls : List Call) : PathStore :=
  fun v g => {p | ∃ file, Call.addFile v g file ∈ calls ∧ p ∈ Path.prefixes file.path}

theorem reached_concat (my : MySql) (calls : List Call) (c : Call) :
    reached my (calls ++ [c]) = (run (World.step my) c.program (reached my calls)).2 := by
  simp [reached]

theorem synced_reached (my : MySql) (calls : List Call) : Synced (reached my calls) := by
  induction calls using List.reverseRecOn with
  | nil => exact Synced.empty
  | append_singleton calls c ih =>
    rw [reached_concat]
    exact wp_run _ (wp_call ih c)

/-- The tables of the server are those of the calls on the tables alone. -/
theorem reached_concat_db (my : MySql) (calls : List Call) (c : Call) :
    (reached my (calls ++ [c])).db
      = (run (Database.step my) c.program (reached my calls).db).2 := by
  rw [reached_concat]
  exact (agree_call (synced_reached my calls) c).related.db_eq

/-- What one call stores. -/
def Call.stored : Call → PathStore
  | .addFile versionId groupId file => .single versionId groupId (Path.prefixes file.path)
  | _ => ⊥

theorem stores_call (my : MySql) {db : Database} (h : PathForest db) (c : Call) :
    Stores db c.stored (run (Database.step my) c.program db).2 := by
  cases c with
  | findVersionOrCreate version =>
    simp only [Call.program, run_bind, run_pure]
    exact (stores_findVersionOrCreate my h version).1
  | findGroupOrCreate group =>
    simp only [Call.program, run_bind, run_pure]
    exact (stores_findGroupOrCreate my h group).1
  | addFile v g file => exact stores_addFile my h v g file

theorem callPaths_concat (calls : List Call) (c : Call) :
    callPaths (calls ++ [c]) = callPaths calls ⊔ c.stored := by
  funext v g
  ext p
  simp only [callPaths, List.mem_append, List.mem_singleton, or_and_right, exists_or]
  refine or_congr Iff.rfl ?_
  cases c with
  | addFile v' g' file =>
    simp only [Call.stored, PathStore.single, Call.addFile.injEq, Set.mem_ofPred_eq]
    constructor
    · rintro ⟨_, ⟨rfl, rfl, rfl⟩, hp⟩
      exact ⟨rfl, rfl, hp⟩
    · rintro ⟨rfl, rfl, hp⟩
      exact ⟨file, ⟨rfl, rfl, rfl⟩, hp⟩
  | _ => simp [Call.stored]

/-- After any sequence of calls the tables are a forest, and its paths are the uploaded ones. -/
theorem paths_reached (my : MySql) (calls : List Call) :
    PathForest (reached my calls).db ∧ (reached my calls).db.paths = callPaths calls := by
  induction calls using List.reverseRecOn with
  | nil =>
    refine ⟨PathForest.empty, ?_⟩
    funext v g
    ext p
    simp [callPaths, reached, World.empty, Database.empty, Database.paths, Database.HasFile,
      Database.links]
  | append_singleton calls c ih =>
    have hstores := stores_call my ih.1 c
    rw [reached_concat_db]
    exact ⟨hstores.forest, by rw [hstores.paths, ih.2, callPaths_concat]⟩

/-! ### The forest, in the words of the tables -/

section Shape

variable {db : Database} (h : PathForest db)
include h

/-- The parent of a define row. -/
theorem PathForest.define_parent {row : DefineFileRow} (hrow : row ∈ db.defineFiles) :
    (row.parentId = 0 ∧ row.filepath = slash :: row.filename) ∨
      ∃ parent ∈ db.defineFiles, parent.id = row.parentId ∧ parent.id < row.id ∧
        parent.filepath ++ slash :: row.filename = row.filepath := by
  obtain ⟨p, c, hs⟩ := h.defineFiles row hrow
  have hpath := hs.filepath
  rw [renderPath_concat] at hpath
  rcases hs.parentId with ⟨rfl, hzero⟩ | ⟨parent, hparent, hparentPath, hid⟩
  · exact Or.inl ⟨hzero, by simpa [hs.filename] using hpath⟩
  · refine Or.inr ⟨parent, hparent, hid, hid ▸ hs.parentId_lt, ?_⟩
    rw [hparentPath, hs.filename, hpath]

/-- The parent of a file row. -/
theorem PathForest.file_parent {l : FileLink} (hl : l ∈ db.links) {row : DefineFileRow}
    (hrow : row ∈ db.defineFiles) (hid : row.id = l.defineFileId) :
    (row.parentId = 0 ∧ l.parentId = 0) ∨
      row.parentId ≠ 0 ∧ ∃ parent ∈ db.links, parent.id = l.parentId ∧ parent.id < l.id ∧
        parent.versionId = l.versionId ∧ parent.fileGroupId = l.fileGroupId ∧
        parent.defineFileId = row.parentId := by
  obtain ⟨p, c, hs⟩ := h.files l hl
  obtain ⟨q, e, hr⟩ := h.defineFiles row hrow
  -- both rows stand for the same path
  have hpath : p ++ [c] = q ++ [e] :=
    h.hasDefine_path hs.defineFileId ⟨row, hrow, hr.filepath, hid⟩
  obtain ⟨rfl, -⟩ := List.append_singleton_inj.mp hpath
  rcases hr.parentId with ⟨rfl, hzero⟩ | hdefine
  · rcases hs.parentId with ⟨-, hzero'⟩ | hfile
    · exact Or.inl ⟨hzero, hzero'⟩
    · exact absurd rfl (h.ne_nil_of_hasFile hfile)
  · have hpos := h.hasDefine_pos hdefine
    rcases hs.parentId with ⟨rfl, -⟩ | ⟨parent, hparent, hv, hg, hparentDefine, hpid⟩
    · exact absurd hdefine h.not_hasDefine_nil
    · exact Or.inr ⟨ne_of_gt hpos, parent, hparent, hpid, hpid ▸ hs.parentId_lt, hv, hg,
        h.hasDefine_id hparentDefine hdefine⟩

/-- The file rows are a forest in the sense of their parent ids. -/
theorem PathForest.descending : Forest.Descending FileLink.id FileLink.parentId db.links := by
  intro l hl
  obtain ⟨p, c, hs⟩ := h.files l hl
  exact ⟨h.fileId_nonneg hs.parentId, hs.parentId_lt⟩

theorem PathForest.closed : Forest.Closed FileLink.id FileLink.parentId db.links := by
  intro l hl
  obtain ⟨p, c, hs⟩ := h.files l hl
  rcases hs.parentId with ⟨-, hzero⟩ | ⟨parent, hparent, -, -, -, hid⟩
  · exact Or.inl hzero
  · exact Or.inr ⟨parent, hparent, hid⟩

/-- The define rows are a forest as well. -/
theorem PathForest.define_descending :
    Forest.Descending DefineFileRow.id DefineFileRow.parentId db.defineFiles := by
  intro row hrow
  obtain ⟨p, c, hs⟩ := h.defineFiles row hrow
  exact ⟨h.defineId_nonneg hs.parentId, hs.parentId_lt⟩

/-- Above a stored path are stored paths, up to the root. -/
theorem PathForest.paths_parent {v g : ℤ} {p : Path} {c : Component} {f : ℤ}
    (hf : db.HasFile v g (p ++ [c]) f) :
    ∃ l ∈ db.links, l.id = f ∧ db.FileId v g p l.parentId := by
  obtain ⟨l, hl, rfl, rfl, hdefine, hid⟩ := hf
  obtain ⟨q, e, hs⟩ := h.files l hl
  obtain ⟨rfl, -⟩ := List.append_singleton_inj.mp (h.hasDefine_path hdefine hs.defineFileId)
  exact ⟨l, hl, hid, hs.parentId⟩

theorem PathForest.paths_prefix {v g : ℤ} {p : Path} {c : Component} (hp : p ≠ [])
    (hc : p ++ [c] ∈ db.paths v g) : p ∈ db.paths v g := by
  obtain ⟨f, hf⟩ := hc
  obtain ⟨l, -, -, ⟨hnil, -⟩ | hparent⟩ := h.paths_parent hf
  · exact absurd hnil hp
  · exact ⟨_, hparent⟩

/-- Every file row has a path, and a path has one row. -/
theorem PathForest.existsUnique_row {v g : ℤ} {p : Path} :
    p ∈ db.paths v g ↔
      ∃! l, l ∈ db.links ∧ l.versionId = v ∧ l.fileGroupId = g ∧ db.HasDefine p l.defineFileId := by
  constructor
  · rintro ⟨_, l, hl, hv, hg, hdefine, rfl⟩
    refine ⟨l, ⟨hl, hv, hg, hdefine⟩, ?_⟩
    rintro l' ⟨hl', hv', hg', hdefine'⟩
    exact h.keyed.fileIds.eq_of_id_eq hl' hl
      (h.hasFile_id ⟨l', hl', hv', hg', hdefine', rfl⟩ ⟨l, hl, hv, hg, hdefine, rfl⟩)
  · rintro ⟨l, ⟨hl, hv, hg, hdefine⟩, -⟩
    exact ⟨l.id, l, hl, hv, hg, hdefine, rfl⟩

end Shape

/-- **The tables are a forest of paths.** After any sequence of calls names, paths and the keys of
`webdiff_files` are unique, the parent links of both tables follow the paths and have no cycle, and
the file rows of a version and group are, one for one, the paths uploaded to it and the directories
on the way to them, each below the row of the directory it lies in. -/
theorem reached_forest (my : MySql) (calls : List Call) :
    ((reached my calls).db.versions.map VersionRow.name).Nodup ∧
    ((reached my calls).db.fileGroups.map FileGroupRow.name).Nodup ∧
    ((reached my calls).db.defineFiles.map DefineFileRow.filepath).Nodup ∧
    ((reached my calls).db.links.map FileLink.key).Nodup ∧
    (∀ row ∈ (reached my calls).db.defineFiles,
      (row.parentId = 0 ∧ row.filepath = slash :: row.filename) ∨
        ∃ parent ∈ (reached my calls).db.defineFiles, parent.id = row.parentId ∧
          parent.id < row.id ∧ parent.filepath ++ slash :: row.filename = row.filepath) ∧
    (∀ l ∈ (reached my calls).db.links,
      ∃ row ∈ (reached my calls).db.defineFiles, row.id = l.defineFileId ∧
        ((row.parentId = 0 ∧ l.parentId = 0) ∨
          row.parentId ≠ 0 ∧ ∃ parent ∈ (reached my calls).db.links, parent.id = l.parentId ∧
            parent.id < l.id ∧ parent.versionId = l.versionId ∧
            parent.fileGroupId = l.fileGroupId ∧ parent.defineFileId = row.parentId)) ∧
    (∀ row, ¬ Relation.TransGen
      (Forest.Link DefineFileRow.id DefineFileRow.parentId (reached my calls).db.defineFiles)
      row row) ∧
    (∀ l, ¬ Relation.TransGen
      (Forest.Link FileLink.id FileLink.parentId (reached my calls).db.links) l l) ∧
    (∀ l ∈ (reached my calls).db.links,
      Forest.ReachesRoot FileLink.id FileLink.parentId (reached my calls).db.links l.id) ∧
    (∀ l ∈ (reached my calls).db.links,
      ∃ p ∈ callPaths calls l.versionId l.fileGroupId,
        (reached my calls).db.HasDefine p l.defineFileId) ∧
    (∀ v g p, p ∈ callPaths calls v g ↔
      ∃! l, l ∈ (reached my calls).db.links ∧ l.versionId = v ∧ l.fileGroupId = g ∧
        (reached my calls).db.HasDefine p l.defineFileId) ∧
    ∀ v g p c f, (reached my calls).db.HasFile v g (p ++ [c]) f →
      ∃ l ∈ (reached my calls).db.links, l.id = f ∧
        (reached my calls).db.FileId v g p l.parentId := by
  obtain ⟨h, hpaths⟩ := paths_reached my calls
  refine ⟨h.keyed.versionNames, h.keyed.groupNames, h.keyed.filepaths, h.keyed.fileKeys,
    fun row hrow => h.define_parent hrow, fun l hl => ?_, h.define_descending.acyclic,
    h.descending.acyclic, fun l hl => h.closed.reachesRoot h.descending hl, fun l hl => ?_,
    fun v g p => ?_, fun v g p c f hf => h.paths_parent hf⟩
  · obtain ⟨p, c, hs⟩ := h.files l hl
    obtain ⟨row, hrow, -, hid⟩ := hs.defineFileId
    exact ⟨row, hrow, hid, h.file_parent hl hrow hid⟩
  · obtain ⟨p, c, hs⟩ := h.files l hl
    exact ⟨p ++ [c], hpaths ▸ ⟨l.id, l, hl, rfl, rfl, hs.defineFileId, rfl⟩, hs.defineFileId⟩
  -- the file rows of a path
  · rw [← hpaths]
    exact h.existsUnique_row

/-! ### Sequences of requests -/

/-- A request that writes. The time of a comment is the value `NOW()` has. -/
inductive Event
  | upload (req : AddRequest)
  | addComment (defineFileId : ℤ) (comment : Bytes) (now : ℤ)
  | hideComment (commentId : ℤ)
deriving DecidableEq, Repr

/-- What the server does with the request. -/
def Event.program : Event → Storage Unit
  | .upload req => do
    let _ ← WebDiff.upload req
    return ()
  | .addComment defineFileId comment now => do
    let _ ← WebDiff.addComment defineFileId comment now
    return ()
  | .hideComment commentId => WebDiff.hideComment commentId

/-- The server after a sequence of requests none of which fails. -/
def afterEvents (my : MySql) (events : List Event) : World :=
  events.foldl (fun w e => (run (World.step my) e.program w).2) World.empty

/-- The uploads among the requests. -/
def uploads (events : List Event) : List AddRequest :=
  events.filterMap fun e =>
    match e with
    | .upload req => some req
    | _ => none

/-- Comments are no business of the caches. -/
theorem Synced.setComments {w : World} (h : Synced w) (comments : List CommentRow) :
    Synced ⟨{ w.db with comments := comments }, w.caches⟩ :=
  ⟨{ h.keyed with }, { h.cached with }⟩

theorem agree_event {my : MySql} {w : World} (h : Synced w) (e : Event) :
    Agrees my e.program w := by
  cases e with
  | upload req =>
    refine (agree_upload h req).bind ?_
    rintro _ w' _ ⟨rfl, h'⟩
    exact Agree.pure () ⟨rfl, h'⟩
  | addComment d comment now => exact ⟨rfl, rfl, rfl, h.setComments _⟩
  | hideComment id => exact ⟨rfl, rfl, rfl, h.setComments _⟩

theorem afterEvents_concat (my : MySql) (events : List Event) (e : Event) :
    afterEvents my (events ++ [e]) = (run (World.step my) e.program (afterEvents my events)).2 := by
  simp [afterEvents]

theorem synced_afterEvents (my : MySql) (events : List Event) : Synced (afterEvents my events) := by
  induction events using List.reverseRecOn with
  | nil => exact Synced.empty
  | append_singleton events e ih =>
    rw [afterEvents_concat]
    exact (agree_event ih e).related.synced

/-- The tables of the server are those of the requests on the tables alone. -/
theorem afterEvents_concat_db (my : MySql) (events : List Event) (e : Event) :
    (afterEvents my (events ++ [e])).db
      = (run (Database.step my) e.program (afterEvents my events).db).2 := by
  rw [afterEvents_concat]
  exact (agree_event (synced_afterEvents my events) e).related.db_eq

/-! ### What requests store -/

/-- The paths the requests upload, where the tables say which names the ids stand for. -/
def requestPaths (db : Database) (reqs : List AddRequest) : PathStore :=
  fun v g => {p | ∃ req ∈ reqs, ⟨v, req.version⟩ ∈ db.versions ∧ ⟨g, req.group⟩ ∈ db.fileGroups ∧
    p ∈ filesPaths req.files}

/-- The tables hold what the requests uploaded, and nothing else. -/
structure History (db : Database) (reqs : List AddRequest) : Prop where
  forest : PathForest db
  paths : db.paths = requestPaths db reqs
  versions : ∀ req ∈ reqs, ∃ v, ⟨v, req.version⟩ ∈ db.versions
  groups : ∀ req ∈ reqs, ∃ g, ⟨g, req.group⟩ ∈ db.fileGroups
  versionNames : ∀ row ∈ db.versions, ∃ req ∈ reqs, req.version = row.name
  groupNames : ∀ row ∈ db.fileGroups, ∃ req ∈ reqs, req.group = row.name
  defined : ∀ p ∈ db.definedPaths, ∃ v g, p ∈ db.paths v g

theorem PathForest.version_id {db : Database} (h : PathForest db) {v v' : ℤ} {name : Bytes}
    (hv : ⟨v, name⟩ ∈ db.versions) (hv' : ⟨v', name⟩ ∈ db.versions) : v = v' :=
  congrArg VersionRow.id (List.inj_on_of_nodup_map h.keyed.versionNames hv hv' rfl)

theorem PathForest.group_id {db : Database} (h : PathForest db) {g g' : ℤ} {name : Bytes}
    (hg : ⟨g, name⟩ ∈ db.fileGroups) (hg' : ⟨g', name⟩ ∈ db.fileGroups) : g = g' :=
  congrArg FileGroupRow.id (List.inj_on_of_nodup_map h.keyed.groupNames hg hg' rfl)

/-- One upload stores the paths of its files under its version and group. -/
theorem stores_upload (my : MySql) {db : Database} (h : PathForest db) (req : AddRequest) :
    ∃ v g, Stores db (.single v g (filesPaths req.files))
        (run (Database.step my) (upload req) db).2 ∧
      ⟨v, req.version⟩ ∈ (run (Database.step my) (upload req) db).2.versions ∧
      ⟨g, req.group⟩ ∈ (run (Database.step my) (upload req) db).2.fileGroups := by
  unfold upload
  simp only [run_bind, run_pure]
  obtain ⟨hversion, hv⟩ := stores_findVersionOrCreate my h req.version
  obtain ⟨hgroup, hg⟩ := stores_findGroupOrCreate my hversion.forest req.group
  have hfiles := stores_addFiles my hgroup.forest
    (run (Database.step my) (findVersionOrCreate req.version) db).1.id
    (run (Database.step my) (findGroupOrCreate req.group)
      (run (Database.step my) (findVersionOrCreate req.version) db).2).1.id req.files
  have hall := (hversion.trans hgroup).trans hfiles
  rw [bot_sup_eq, bot_sup_eq] at hall
  exact ⟨_, _, hall, hfiles.grows.versions (hgroup.grows.versions hv), hfiles.grows.fileGroups hg⟩

/-- The tables an upload may make of `db`, as far as its own name and group go. -/
structure UploadFrame (db : Database) (req : AddRequest) (db' : Database) : Prop where
  versions : ∀ row ∈ db'.versions, row ∈ db.versions ∨ row.name = req.version
  fileGroups : ∀ row ∈ db'.fileGroups, row ∈ db.fileGroups ∨ row.name = req.group
  comments : db'.comments = db.comments

/-- An upload names no version and no group but its own, and writes no comment. -/
theorem upload_frame (my : MySql) (db : Database) (req : AddRequest) :
    UploadFrame db req (run (Database.step my) (upload req) db).2 := by
  -- the frame is kept by every operation of an upload
  have hstart : UploadFrame db req db :=
    ⟨fun _ hrow => Or.inl hrow, fun _ hrow => Or.inl hrow, rfl⟩
  refine run_of_uses (Database.step my) (fun o db' ho h => ?_) (uses_upload req) hstart
  cases o with
  | sql s =>
    cases s with
    | insertVersion name =>
      refine { h with versions := fun row hrow => ?_ }
      rcases List.mem_append.mp hrow with hrow | hrow
      · exact h.versions row hrow
      · exact Or.inr ((congrArg VersionRow.name (List.mem_singleton.mp hrow)).trans ho)
    | insertGroup name =>
      refine { h with fileGroups := fun row hrow => ?_ }
      rcases List.mem_append.mp hrow with hrow | hrow
      · exact h.fileGroups row hrow
      · exact Or.inr ((congrArg FileGroupRow.name (List.mem_singleton.mp hrow)).trans ho)
    | insertComment d comment now => exact ho.elim
    | updateHided id => exact ho.elim
    | _ => exact { h with }
  | _ => exact h

theorem History.empty : History Database.empty [] where
  forest := PathForest.empty
  paths := by
    funext v g
    ext p
    simp [requestPaths, Database.empty, Database.paths, Database.HasFile, Database.links]
  versions := fun _ h => absurd h List.not_mem_nil
  groups := fun _ h => absurd h List.not_mem_nil
  versionNames := fun _ h => absurd h List.not_mem_nil
  groupNames := fun _ h => absurd h List.not_mem_nil
  defined := fun _ ⟨_, _, h, _⟩ => absurd h List.not_mem_nil

/-- One more upload. -/
theorem History.upload (my : MySql) {db : Database} {reqs : List AddRequest} (h : History db reqs)
    (req : AddRequest) :
    History (run (Database.step my) (WebDiff.upload req) db).2 (reqs ++ [req]) := by
  obtain ⟨v, g, hstores, hv, hg⟩ := stores_upload my h.forest req
  have hframe := upload_frame my db req
  -- the ids of the earlier requests stay what they were
  have hold : ∀ r ∈ reqs, ∀ v' g',
      (⟨v', r.version⟩ ∈ (run (Database.step my) (WebDiff.upload req) db).2.versions ↔
        ⟨v', r.version⟩ ∈ db.versions) ∧
      (⟨g', r.group⟩ ∈ (run (Database.step my) (WebDiff.upload req) db).2.fileGroups ↔
        ⟨g', r.group⟩ ∈ db.fileGroups) := by
    intro r hr v' g'
    obtain ⟨v₀, hv₀⟩ := h.versions r hr
    obtain ⟨g₀, hg₀⟩ := h.groups r hr
    refine ⟨⟨fun hv' => ?_, fun hv' => hstores.grows.versions hv'⟩,
      ⟨fun hg' => ?_, fun hg' => hstores.grows.fileGroups hg'⟩⟩
    · exact hstores.forest.version_id hv' (hstores.grows.versions hv₀) ▸ hv₀
    · exact hstores.forest.group_id hg' (hstores.grows.fileGroups hg₀) ▸ hg₀
  refine ⟨hstores.forest, ?_, fun r hr => ?_, fun r hr => ?_, fun row hrow => ?_,
    fun row hrow => ?_, fun p hp => ?_⟩
  · rw [hstores.paths, h.paths]
    funext v' g'
    ext p
    constructor
    · rintro (⟨r, hr, hv', hg', hp⟩ | ⟨rfl, rfl, hp⟩)
      · exact ⟨r, List.mem_append_left _ hr, ((hold r hr v' g').1).mpr hv',
          ((hold r hr v' g').2).mpr hg', hp⟩
      · exact ⟨req, List.mem_append_right _ (List.mem_singleton.mpr rfl), hv, hg, hp⟩
    · rintro ⟨r, hr, hv', hg', hp⟩
      rcases List.mem_append.mp hr with hr | hr
      · exact Or.inl ⟨r, hr, ((hold r hr v' g').1).mp hv', ((hold r hr v' g').2).mp hg', hp⟩
      · obtain rfl := List.mem_singleton.mp hr
        exact Or.inr ⟨hstores.forest.version_id hv' hv, hstores.forest.group_id hg' hg, hp⟩
  · rcases List.mem_append.mp hr with hr | hr
    · obtain ⟨v', hv'⟩ := h.versions r hr
      exact ⟨v', hstores.grows.versions hv'⟩
    · obtain rfl := List.mem_singleton.mp hr
      exact ⟨v, hv⟩
  · rcases List.mem_append.mp hr with hr | hr
    · obtain ⟨g', hg'⟩ := h.groups r hr
      exact ⟨g', hstores.grows.fileGroups hg'⟩
    · obtain rfl := List.mem_singleton.mp hr
      exact ⟨g, hg⟩
  · rcases hframe.versions row hrow with hrow | hname
    · obtain ⟨r, hr, hname⟩ := h.versionNames row hrow
      exact ⟨r, List.mem_append_left _ hr, hname⟩
    · exact ⟨req, List.mem_append_right _ (List.mem_singleton.mpr rfl), hname.symm⟩
  · rcases hframe.fileGroups row hrow with hrow | hname
    · obtain ⟨r, hr, hname⟩ := h.groupNames row hrow
      exact ⟨r, List.mem_append_left _ hr, hname⟩
    · exact ⟨req, List.mem_append_right _ (List.mem_singleton.mpr rfl), hname.symm⟩
  · rw [hstores.paths]
    rcases hstores.defined hp with hp | ⟨v', g', hp⟩
    · obtain ⟨v', g', hp⟩ := h.defined p hp
      exact ⟨v', g', Or.inl hp⟩
    · exact ⟨v', g', Or.inr hp⟩

/-- Comments change nothing else. -/
theorem History.setComments {db : Database} {reqs : List AddRequest} (h : History db reqs)
    (comments : List CommentRow) : History { db with comments := comments } reqs :=
  { h with
    forest := h.forest.of_same_paths ⟨fun _ hx => hx, fun _ hx => hx, fun _ hx => hx,
      fun _ hx => hx⟩ { h.forest.keyed with } rfl rfl }

/-- **The tables hold what was uploaded**, after any sequence of requests. -/
theorem history_afterEvents (my : MySql) (events : List Event) :
    History (afterEvents my events).db (uploads events) := by
  induction events using List.reverseRecOn with
  | nil => exact History.empty
  | append_singleton events e ih =>
    rw [afterEvents_concat_db, uploads, List.filterMap_append]
    cases e with
    | upload req =>
      simp only [Event.program, run_bind, run_pure]
      exact ih.upload my req
    -- requests about comments upload nothing
    | addComment d comment now =>
      rw [List.filterMap_cons_none rfl, List.filterMap_nil, List.append_nil]
      exact ih.setComments _
    | hideComment id =>
      rw [List.filterMap_cons_none rfl, List.filterMap_nil, List.append_nil]
      exact ih.setComments _

/-- The server after a sequence of uploads. -/
def uploaded (my : MySql) (reqs : List AddRequest) : World :=
  afterEvents my (reqs.map Event.upload)

theorem history_uploaded (my : MySql) (reqs : List AddRequest) :
    History (uploaded my reqs).db reqs := by
  have h := history_afterEvents my (reqs.map Event.upload)
  have hreqs : uploads (reqs.map Event.upload) = reqs := by
    rw [uploads, List.filterMap_map]
    exact List.filterMap_some
  rwa [hreqs] at h

/-- A group with paths has a row. -/
theorem History.exists_group {db : Database} {reqs : List AddRequest} (h : History db reqs)
    {v g : ℤ} {p : Path} (hp : p ∈ db.paths v g) : ∃ row ∈ db.fileGroups, row.id = g := by
  rw [h.paths] at hp
  obtain ⟨req, -, -, hg, -⟩ := hp
  exact ⟨_, hg, rfl⟩

end WebDiff
