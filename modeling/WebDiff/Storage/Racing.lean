import WebDiff.Framework.FindOrCreate
import WebDiff.Storage.Footprint
import WebDiff.Storage.History

/-!
# Requests that race

The requests of several connections run side by side on one `MySqlStorage`, and none of its four
find-or-create functions holds a lock from its lookup to the insertion into its cache. Whole uploads
race there, from their versions and groups down to their files, where the ids a thread goes on with
are those its own lookups answered.

Each of the four caches is a table and a cache in the sense of `Reservation`. In the end a column
has no two equal keys exactly if its cache had no clash, whatever happened in the other three
(`racing_requests`).
-/

namespace WebDiff

open Program Table Reservation

/-! ### Connections -/

/-- The requests of one connection, one after another. -/
def requests : List Event → Storage Unit
  | [] => return ()
  | e :: rest => do
    e.program
    requests rest

/-- The connections in front of their first requests. -/
def connections {ι : Type} (w : World) (events : ι → List Event) : Pool Op Op.Res Unit World ι :=
  ⟨w, fun i => requests (events i)⟩

/-! ### The four caches -/

/-- What an operation means for the versions. -/
def versionAction : Op → Action Bytes
  | .findVersion name => .lookup name
  | .sql (.insertVersion name) => .insert name
  | .pushVersion ver => .put ver.name ver.id
  | _ => .other

def versionAnswer : (o : Op) → o.Res → Option ℤ
  | .findVersion _, found => found.map ModelVersion.id
  | .sql (.insertVersion _), id => some id
  | _, _ => none

/-- What an operation means for the groups. -/
def groupAction : Op → Action Bytes
  | .findGroup title => .lookup title
  | .sql (.insertGroup title) => .insert title
  | .pushGroup gr => .put gr.title gr.id
  | _ => .other

def groupAnswer : (o : Op) → o.Res → Option ℤ
  | .findGroup _, found => found.map ModelGroup.id
  | .sql (.insertGroup _), id => some id
  | _, _ => none

/-- What an operation means for the paths. -/
def defineAction : Op → Action Bytes
  | .findDefineFile filePath => .lookup filePath
  | .sql (.insertDefineFile filePath _ _) => .insert filePath
  | .putDefineFile filePath defineFileId => .put filePath defineFileId
  | _ => .other

def defineAnswer : (o : Op) → o.Res → Option ℤ
  | .findDefineFile _, found => found
  | .sql (.insertDefineFile _ _ _), id => some id
  | _, _ => none

/-- What an operation means for the files. -/
def fileAction : Op → Action (ℤ × ℤ × ℤ)
  | .findFile versionId groupId defineFileId => .lookup (versionId, groupId, defineFileId)
  | .sql (.insertFile versionId groupId defineFileId _) =>
    .insert (versionId, groupId, defineFileId)
  | .putFile versionId groupId defineFileId fileId =>
    .put (versionId, groupId, defineFileId) fileId
  | _ => .other

def fileAnswer : (o : Op) → o.Res → Option ℤ
  | .findFile _ _ _, fileId => if fileId = -1 then none else some fileId
  | .sql (.insertFile _ _ _ _), id => some id
  | _, _ => none

/-- The id of the version the scan of `m_vVersions` finds. -/
def Caches.versionId (c : Caches) (name : Bytes) : Option ℤ :=
  listCache ModelVersion.name ModelVersion.id c.versions name

/-- The id of the group the scan of `m_vGroups` finds. -/
def Caches.groupId (c : Caches) (title : Bytes) : Option ℤ :=
  listCache ModelGroup.title ModelGroup.id c.groups title

/-- The id `m_cacheGroups` answers, where it answers one. -/
def Caches.fileId (c : Caches) (key : ℤ × ℤ × ℤ) : Option ℤ :=
  if c.fileIds.findFileId key.1 key.2.1 key.2.2 = -1 then none
  else some (c.fileIds.findFileId key.1 key.2.1 key.2.2)

/-! ### The programs keep to the order -/

section Follows

variable {K : Type} {action : Op → Action K} {answer : (o : Op) → o.Res → Option ℤ}

/-- The functions of the storage keep to the order. -/
structure FindsFirst (action : Op → Action K) (answer : (o : Op) → o.Res → Option ℤ) : Prop where
  version : ∀ version, Follows action answer (findVersionOrCreate version) none
  group : ∀ group, Follows action answer (findGroupOrCreate group) none
  defineFile : ∀ filePath fileName defineFileId,
    Follows action answer (findDefineFileIdOrCreate filePath fileName defineFileId) none
  file : ∀ versionId groupId defineFileId fileParentId,
    Follows action answer (findFileOrCreate versionId groupId defineFileId fileParentId) none
  addComment : ∀ defineFileId comment now,
    Follows action answer (addComment defineFileId comment now) none
  hideComment : ∀ commentId, Follows action answer (hideComment commentId) none

variable (h : FindsFirst action answer)
include h

theorem FindsFirst.addFileLoop (v g : ℤ) (names : List Bytes) (path : Bytes) (d f : ℤ) :
    Follows action answer (addFileLoop v g names path d f) none := by
  induction names generalizing path d f with
  | nil => exact follows_pure ()
  | cons name rest ih =>
    unfold WebDiff.addFileLoop
    split
    · exact ih path d f
    · apply follows_bind (h.defineFile _ _ _)
      intro d'
      exact follows_bind (h.file _ _ _ _) fun f' => ih _ d' f'

theorem FindsFirst.addFiles (v g : ℤ) (files : List FileInfo) :
    Follows action answer (addFiles v g files) none := by
  induction files with
  | nil => exact follows_pure ()
  | cons file rest ih =>
    apply follows_bind _ fun _ => ih
    rw [addFile_eq]
    exact h.addFileLoop v g _ _ 0 0

theorem FindsFirst.event (e : Event) : Follows action answer e.program none := by
  cases e with
  | upload req =>
    apply follows_bind _ fun _ => follows_pure ()
    apply follows_bind (h.version req.version)
    intro ver
    apply follows_bind (h.group req.group)
    intro gr
    exact follows_bind (h.addFiles ver.id gr.id req.files) fun _ => follows_pure _
  | addComment d comment now =>
    exact follows_bind (h.addComment d comment now) fun _ => follows_pure ()
  | hideComment id => exact h.hideComment id

/-- **Every connection** keeps to the order. -/
theorem FindsFirst.requests (events : List Event) :
    Follows action answer (requests events) none := by
  induction events with
  | nil => exact follows_pure ()
  | cons e rest ih => exact follows_bind (h.event e) fun _ => ih

end Follows

/-- `findFileOrCreate` touches the files alone. -/
theorem uses_findFileOrCreate_of {A : Op → Prop} {v g d f : ℤ} (hfind : A (.findFile v g d))
    (hinsert : A (.sql (.insertFile v g d f))) (hcount : A (.sql (.selectCount f)))
    (hupdate : ∀ n, A (.sql (.updateAmountOfChildren n f))) (hput : ∀ id, A (.putFile v g d id)) :
    (findFileOrCreate v g d f).Uses A := by
  apply uses_bind (uses_perform hfind)
  intro fileId
  unfold createFileIfAbsent
  split
  · exact uses_pure fileId
  · refine uses_bind ?_ fun id => uses_bind (uses_perform (hput id)) fun _ => uses_pure id
    exact uses_bind (uses_perform hinsert) fun _ => uses_bind (uses_perform hcount) fun n =>
      uses_bind (uses_perform (hupdate n)) fun _ => uses_pure _

theorem findsFirst_versions : FindsFirst versionAction versionAnswer where
  version := fun name found => by
    cases found with
    | some ver => exact ⟨none, .hit, rfl⟩
    | none => exact ⟨_, .miss, fun id => ⟨_, .insert, fun _ => ⟨_, .put, rfl⟩⟩⟩
  group := fun _ => follows_of_uses (uses_findGroupOrCreate rfl rfl fun _ => rfl)
  defineFile := fun _ _ _ => follows_of_uses (uses_findDefineFileIdOrCreate rfl rfl fun _ => rfl)
  file := fun _ _ _ _ =>
    follows_of_uses (uses_findFileOrCreate_of rfl rfl rfl (fun _ => rfl) fun _ => rfl)
  addComment := fun _ _ _ => follows_of_uses (uses_bind (uses_perform rfl) fun _ => uses_pure _)
  hideComment := fun _ => follows_of_uses (uses_perform rfl)

theorem findsFirst_groups : FindsFirst groupAction groupAnswer where
  version := fun _ => follows_of_uses (uses_findVersionOrCreate rfl rfl fun _ => rfl)
  group := fun title found => by
    cases found with
    | some gr => exact ⟨none, .hit, rfl⟩
    | none => exact ⟨_, .miss, fun id => ⟨_, .insert, fun _ => ⟨_, .put, rfl⟩⟩⟩
  defineFile := fun _ _ _ => follows_of_uses (uses_findDefineFileIdOrCreate rfl rfl fun _ => rfl)
  file := fun _ _ _ _ =>
    follows_of_uses (uses_findFileOrCreate_of rfl rfl rfl (fun _ => rfl) fun _ => rfl)
  addComment := fun _ _ _ => follows_of_uses (uses_bind (uses_perform rfl) fun _ => uses_pure _)
  hideComment := fun _ => follows_of_uses (uses_perform rfl)

theorem findsFirst_defines : FindsFirst defineAction defineAnswer where
  version := fun _ => follows_of_uses (uses_findVersionOrCreate rfl rfl fun _ => rfl)
  group := fun _ => follows_of_uses (uses_findGroupOrCreate rfl rfl fun _ => rfl)
  defineFile := fun path name d found => by
    cases found with
    | some id => exact ⟨none, .hit, rfl⟩
    | none => exact ⟨_, .miss, fun id => ⟨_, .insert, fun _ => ⟨_, .put, rfl⟩⟩⟩
  file := fun _ _ _ _ =>
    follows_of_uses (uses_findFileOrCreate_of rfl rfl rfl (fun _ => rfl) fun _ => rfl)
  addComment := fun _ _ _ => follows_of_uses (uses_bind (uses_perform rfl) fun _ => uses_pure _)
  hideComment := fun _ => follows_of_uses (uses_perform rfl)

theorem findsFirst_files : FindsFirst fileAction fileAnswer where
  version := fun _ => follows_of_uses (uses_findVersionOrCreate rfl rfl fun _ => rfl)
  group := fun _ => follows_of_uses (uses_findGroupOrCreate rfl rfl fun _ => rfl)
  defineFile := fun _ _ _ => follows_of_uses (uses_findDefineFileIdOrCreate rfl rfl fun _ => rfl)
  file := fun v g d f fileId => by
    by_cases hid : fileId = -1
    -- between the row and its id in the cache come the two statements of the counter
    · subst hid
      exact ⟨_, .miss, fun id => ⟨_, .insert, fun _ => ⟨_, .other, fun _ => ⟨_, .other,
        fun _ => ⟨_, .put, rfl⟩⟩⟩⟩⟩
    · refine ⟨none, ?_, ?_⟩
      · show Moves none (.lookup _) (if fileId = -1 then none else some fileId) none
        rw [if_neg hid]
        exact .hit
      · show Follows fileAction fileAnswer (createFileIfAbsent v g d f fileId) none
        unfold createFileIfAbsent
        rw [if_pos hid]
        rfl
  addComment := fun _ _ _ => follows_of_uses (uses_bind (uses_perform rfl) fun _ => uses_pure _)
  hideComment := fun _ => follows_of_uses (uses_perform rfl)

/-! ### The operations do what they mean -/

section Interprets

variable (my : MySql)

theorem interprets_versions : Interprets (World.step my) VersionRow.name VersionRow.id
    (fun w => w.db.versions) (fun w => w.caches.versionId) versionAction versionAnswer
    fun _ => True where
  keeps := fun _ _ _ => trivial
  lookup := fun o w k ho => by
    cases o with
    | findVersion name =>
      obtain rfl := Action.lookup.inj ho
      exact ⟨rfl, rfl, rfl⟩
    | sql s => cases s <;> exact nomatch ho
    | _ => exact nomatch ho
  insert := fun o w k ho => by
    cases o with
    | sql s =>
      cases s with
      | insertVersion name =>
        obtain rfl := Action.insert.inj ho
        exact ⟨_, rfl, rfl, rfl, rfl⟩
      | _ => exact nomatch ho
    | _ => exact nomatch ho
  put := fun o w k n ho => by
    cases o with
    | pushVersion ver =>
      obtain ⟨rfl, rfl⟩ := Action.put.inj ho
      exact ⟨rfl, fun _ _ hnone => listCache_append hnone⟩
    | sql s => cases s <;> exact nomatch ho
    | _ => exact nomatch ho
  other := fun o w ho => by
    cases o with
    | sql s =>
      cases s with
      | insertVersion name => exact nomatch ho
      | _ => exact ⟨rfl, rfl⟩
    | findVersion name => exact nomatch ho
    | pushVersion ver => exact nomatch ho
    | _ => exact ⟨rfl, rfl⟩

theorem interprets_groups : Interprets (World.step my) FileGroupRow.name FileGroupRow.id
    (fun w => w.db.fileGroups) (fun w => w.caches.groupId) groupAction groupAnswer
    fun _ => True where
  keeps := fun _ _ _ => trivial
  lookup := fun o w k ho => by
    cases o with
    | findGroup title =>
      obtain rfl := Action.lookup.inj ho
      exact ⟨rfl, rfl, rfl⟩
    | sql s => cases s <;> exact nomatch ho
    | _ => exact nomatch ho
  insert := fun o w k ho => by
    cases o with
    | sql s =>
      cases s with
      | insertGroup title =>
        obtain rfl := Action.insert.inj ho
        exact ⟨_, rfl, rfl, rfl, rfl⟩
      | _ => exact nomatch ho
    | _ => exact nomatch ho
  put := fun o w k n ho => by
    cases o with
    | pushGroup gr =>
      obtain ⟨rfl, rfl⟩ := Action.put.inj ho
      exact ⟨rfl, fun _ _ hnone => listCache_append hnone⟩
    | sql s => cases s <;> exact nomatch ho
    | _ => exact nomatch ho
  other := fun o w ho => by
    cases o with
    | sql s =>
      cases s with
      | insertGroup title => exact nomatch ho
      | _ => exact ⟨rfl, rfl⟩
    | findGroup title => exact nomatch ho
    | pushGroup gr => exact nomatch ho
    | _ => exact ⟨rfl, rfl⟩

theorem interprets_defines : Interprets (World.step my) DefineFileRow.filepath DefineFileRow.id
    (fun w => w.db.defineFiles) (fun w => w.caches.defineFileIds) defineAction defineAnswer
    fun _ => True where
  keeps := fun _ _ _ => trivial
  lookup := fun o w k ho => by
    cases o with
    | findDefineFile filePath =>
      obtain rfl := Action.lookup.inj ho
      exact ⟨rfl, rfl, rfl⟩
    | sql s => cases s <;> exact nomatch ho
    | _ => exact nomatch ho
  insert := fun o w k ho => by
    cases o with
    | sql s =>
      cases s with
      | insertDefineFile filePath fileName parentId =>
        obtain rfl := Action.insert.inj ho
        exact ⟨_, rfl, rfl, rfl, rfl⟩
      | _ => exact nomatch ho
    | _ => exact nomatch ho
  put := fun o w k n ho => by
    cases o with
    | putDefineFile filePath defineFileId =>
      obtain ⟨rfl, rfl⟩ := Action.put.inj ho
      exact ⟨rfl, fun _ _ _ => rfl⟩
    | sql s => cases s <;> exact nomatch ho
    | _ => exact nomatch ho
  other := fun o w ho => by
    cases o with
    | sql s =>
      cases s with
      | insertDefineFile filePath fileName parentId => exact nomatch ho
      | _ => exact ⟨rfl, rfl⟩
    | findDefineFile filePath => exact nomatch ho
    | putDefineFile filePath defineFileId => exact nomatch ho
    | _ => exact ⟨rfl, rfl⟩

/-- The answer of `m_cacheGroups`, read off its three levels. -/
theorem Caches.fileId_eq (c : Caches) (key : ℤ × ℤ × ℤ) :
    c.fileId key = (c.fileIds.lookup key).filter fun id => id ≠ -1 := by
  unfold Caches.fileId
  rw [ModelCacheFilesVersion.findFileId_eq]
  cases c.fileIds.lookup key with
  | none => rfl
  | some id =>
    by_cases hid : id = -1
    · simp [hid, Option.filter]
    · simp [hid, Option.filter]

/-- The ids of the files increase whatever is performed, so that none is `-1`. -/
theorem interprets_files : Interprets (World.step my) FileLink.key FileLink.id
    (fun w => w.db.links) (fun w => w.caches.fileId) fileAction fileAnswer
    fun w => Increasing FileLink.id w.db.links where
  keeps := fun o w hincreasing => by
    cases o with
    | sql s =>
      cases s with
      | insertFile v g d parent =>
        show Increasing FileLink.id ((Sql.insertFile v g d parent).exec my w.db).2.links
        rw [links_insertFile]
        exact hincreasing.append (my.lastId_lt_nextId _ _ _)
      | updateAmountOfChildren amount id =>
        show Increasing FileLink.id ((Sql.updateAmountOfChildren amount id).exec my w.db).2.links
        rw [links_updateAmount]
        exact hincreasing
      | _ => exact hincreasing
    | _ => exact hincreasing
  lookup := fun o w k ho => by
    cases o with
    | findFile v g d =>
      obtain rfl := Action.lookup.inj ho
      exact ⟨rfl, rfl, rfl⟩
    | sql s => cases s <;> exact nomatch ho
    | _ => exact nomatch ho
  insert := fun o w k ho => by
    cases o with
    | sql s =>
      cases s with
      | insertFile v g d parent =>
        obtain rfl := Action.insert.inj ho
        exact ⟨_, rfl, rfl, links_insertFile my w.db v g d parent, rfl⟩
      | _ => exact nomatch ho
    | _ => exact nomatch ho
  put := fun o w k n ho => by
    cases o with
    | putFile v g d fileId =>
      obtain ⟨rfl, rfl⟩ := Action.put.inj ho
      refine ⟨rfl, fun hincreasing hrow _ => funext fun key => ?_⟩
      obtain ⟨row, hmem, rfl⟩ := hrow
      have hpos := hincreasing.pos row hmem
      show Caches.fileId ⟨_, _, _, w.caches.fileIds.add v g d row.id⟩ key = _
      rw [Caches.fileId_eq, ModelCacheFilesVersion.lookup_add, Function.update_apply]
      split
      · have hid : row.id ≠ -1 := by omega
        simp [hid]
      · exact (Caches.fileId_eq _ _).symm
    | sql s => cases s <;> exact nomatch ho
    | _ => exact nomatch ho
  other := fun o w ho => by
    cases o with
    | sql s =>
      cases s with
      | insertFile v g d parent => exact nomatch ho
      | updateAmountOfChildren amount id => exact ⟨links_updateAmount my w.db amount id, rfl⟩
      | _ => exact ⟨rfl, rfl⟩
    | findFile v g d => exact nomatch ho
    | putFile v g d fileId => exact nomatch ho
    | _ => exact ⟨rfl, rfl⟩

end Interprets

/-! ### A server that has loaded its tables -/

section Reflects

variable {w : World} (h : Synced w)
include h

theorem Synced.reflects_versions :
    Reflects VersionRow.name VersionRow.id w.db.versions w.caches.versionId := by
  have hnames : (w.caches.versions.map ModelVersion.name).Nodup := by
    rw [(h.cached.versions.map ModelVersion.name).nodup_iff, List.map_map]
    exact h.keyed.versionNames
  refine ⟨h.keyed.versionNames, fun name id => ?_⟩
  show listCache _ _ _ _ = _ ↔ _
  rw [listCache_eq_some_iff hnames]
  simp only [h.cached.versions.mem_iff, List.mem_map]
  constructor
  · rintro ⟨ver, ⟨row, hrow, rfl⟩, hname, hid⟩
    exact ⟨row, hrow, hname, hid⟩
  · intro ⟨row, hrow, hname, hid⟩
    exact ⟨row.toModel, ⟨row, hrow, rfl⟩, hname, hid⟩

theorem Synced.reflects_groups :
    Reflects FileGroupRow.name FileGroupRow.id w.db.fileGroups w.caches.groupId := by
  have hnames : (w.caches.groups.map ModelGroup.title).Nodup := by
    rw [(h.cached.groups.map ModelGroup.title).nodup_iff, List.map_map]
    exact h.keyed.groupNames
  refine ⟨h.keyed.groupNames, fun title id => ?_⟩
  show listCache _ _ _ _ = _ ↔ _
  rw [listCache_eq_some_iff hnames]
  simp only [h.cached.groups.mem_iff, List.mem_map]
  constructor
  · rintro ⟨gr, ⟨row, hrow, rfl⟩, hname, hid⟩
    exact ⟨row, hrow, hname, hid⟩
  · intro ⟨row, hrow, hname, hid⟩
    exact ⟨row.toModel, ⟨row, hrow, rfl⟩, hname, hid⟩

theorem Synced.reflects_defines :
    Reflects DefineFileRow.filepath DefineFileRow.id w.db.defineFiles w.caches.defineFileIds :=
  ⟨h.keyed.filepaths, h.cached.defineFileIds⟩

theorem Synced.reflects_files :
    Reflects FileLink.key FileLink.id w.db.links w.caches.fileId := by
  refine ⟨h.keyed.fileKeys, fun key id => ?_⟩
  show w.caches.fileId key = some id ↔ _
  rw [Caches.fileId_eq, Option.filter_eq_some_iff, h.cached.fileIds]
  refine and_iff_left_of_imp ?_
  rintro ⟨row, hrow, -, rfl⟩
  have hpos := h.keyed.fileIds.pos row hrow
  simp only [ne_eq, decide_not, Bool.not_eq_true', decide_eq_false_iff_not]
  omega

end Reflects

/-! ### Runs -/

/-- **Requests that race.** Connections send requests to a server that has handled others. However
their operations interleave, in the end the names of the versions are all different, and the scan of
`m_vVersions` finds every row, exactly if no connection looked up a name that another one had missed
and not pushed yet; the same holds of the groups, of the paths and of the keys of the files. -/
theorem racing_requests (my : MySql) (before : List Event) {ι : Type} [DecidableEq ι]
    (events : ι → List Event) (schedule : List ι)
    (hfinished :
      ((connections (afterEvents my before) events).run (World.step my) schedule).Finished) :
    let start := connections (afterEvents my before) events
    let w := (start.run (World.step my) schedule).state
    [NoClash (World.step my) versionAction start schedule,
      (w.db.versions.map VersionRow.name).Nodup,
      Reflects VersionRow.name VersionRow.id w.db.versions w.caches.versionId].TFAE ∧
    [NoClash (World.step my) groupAction start schedule,
      (w.db.fileGroups.map FileGroupRow.name).Nodup,
      Reflects FileGroupRow.name FileGroupRow.id w.db.fileGroups w.caches.groupId].TFAE ∧
    [NoClash (World.step my) defineAction start schedule,
      (w.db.defineFiles.map DefineFileRow.filepath).Nodup,
      Reflects DefineFileRow.filepath DefineFileRow.id w.db.defineFiles
        w.caches.defineFileIds].TFAE ∧
    [NoClash (World.step my) fileAction start schedule,
      (w.db.links.map FileLink.key).Nodup,
      Reflects FileLink.key FileLink.id w.db.links w.caches.fileId].TFAE := by
  have hsynced := synced_afterEvents my before
  refine ⟨?_, ?_, ?_, ?_⟩
  · exact reflects_iff_noClash (interprets_versions my)
      (fun i => findsFirst_versions.requests (events i)) hsynced.reflects_versions trivial hfinished
  · exact reflects_iff_noClash (interprets_groups my)
      (fun i => findsFirst_groups.requests (events i)) hsynced.reflects_groups trivial hfinished
  · exact reflects_iff_noClash (interprets_defines my)
      (fun i => findsFirst_defines.requests (events i)) hsynced.reflects_defines trivial hfinished
  · exact reflects_iff_noClash (interprets_files my)
      (fun i => findsFirst_files.requests (events i)) hsynced.reflects_files hsynced.keyed.fileIds
      hfinished

/-- Two connections upload the same version and group. Both look up the version before one of them
inserts it, and the second one looks up the group behind the first one. -/
def racingVersions : List Bool :=
  [false, true] ++ List.replicate 5 false ++ List.replicate 3 true

/-- The versions clash and the groups do not. -/
theorem racing_requests_racingVersions :
    ¬ NoClash (World.step MySql.innodb) versionAction
        (connections (afterEvents MySql.innodb [])
          fun _ : Bool => [.upload ⟨lit "1.0", lit "bin", []⟩]) racingVersions ∧
      NoClash (World.step MySql.innodb) groupAction
        (connections (afterEvents MySql.innodb [])
          fun _ : Bool => [.upload ⟨lit "1.0", lit "bin", []⟩]) racingVersions := by
  have h := racing_requests MySql.innodb [] (fun _ : Bool => [.upload ⟨lit "1.0", lit "bin", []⟩])
    racingVersions (by unfold Pool.Finished; decide +kernel)
  constructor
  · intro hclash
    exact absurd ((h.1.out 0 1).mp hclash) (by decide +kernel)
  · exact (h.2.1.out 0 1).mpr (by decide +kernel)

end WebDiff
