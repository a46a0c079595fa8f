import WebDiff.Storage.Counters
import WebDiff.Storage.Renaming

/-!
# When interleaved uploads are serialisable

Threads that share one `MySqlStorage` leave the tables as the same calls would, one after another
and up to a renaming of ids, exactly if two things never happen (`serialisable_iff`):

* a thread misses a key in a cache that another thread has missed and not put into the cache yet
  (`Clashes`) — then both insert a row for it;
* the last `UPDATE` of a counter comes after the `INSERT` of a child its `COUNT` did not see
  (`Overtaken`).

The lookups and the insertions of `findDefineFileIdOrCreate` and `findFileOrCreate`, and the two
statements of `insertFile` that write a counter, are not held together by anything, and both happen
in the run of two threads that upload one file each.
-/

namespace WebDiff

open Program Table Reservation

/-! ### Clashes, in the words of the programs -/

/-- The operation is a lookup that misses. -/
def Op.Misses (w : World) : Op → Prop
  | .findDefineFile filePath => w.caches.defineFileIds filePath = none
  | .findFile versionId groupId defineFileId =>
    w.caches.fileIds.findFileId versionId groupId defineFileId = -1
  | _ => False

/-- The second operation puts into the cache what the first one looks up. -/
def Op.Fills : Op → Op → Prop
  | .findDefineFile filePath, .putDefineFile filePath' _ => filePath' = filePath
  | .findFile versionId groupId defineFileId, .putFile versionId' groupId' defineFileId' _ =>
    versionId' = versionId ∧ groupId' = groupId ∧ defineFileId' = defineFileId
  | _, _ => False

/-- The program comes to an operation of the kind `A`, with nothing but statements before it. -/
def YetTo (A : Op → Prop) : Storage Unit → Prop
  | .ret _ => False
  | .step o k => A o ∨ o.isSql = true ∧ ∀ r, YetTo A (k r)

variable {ι : Type}

/-- The thread `i` is about to look up a key that is not in the cache, and the thread `j` stands
between its own lookup of the key and its insertion into the cache. -/
def Clashes (c : Pool Op Op.Res Unit World ι) (i j : ι) : Prop :=
  j ≠ i ∧ ∃ o, c.next i = some o ∧ o.Misses c.state ∧ YetTo o.Fills (c.threads j)

/-- No step of the run is a clash. -/
def Undisturbed [DecidableEq ι] (my : MySql) (c : Pool Op Op.Res Unit World ι)
    (schedule : List ι) : Prop :=
  ∀ before i, before ++ [i] <+: schedule →
    ∀ j, ¬ Clashes (c.run (World.step my) before) i j

section YetTo

variable {A : Op → Prop} {r : Round}

theorem yetTo_of_not_sql {st : Stage} (h : (st.op r).isSql = false) :
    YetTo A (st.program r) ↔ A (st.op r) := by
  obtain ⟨k, hk, -⟩ := st.program_eq MySql.innodb r
  rw [hk, YetTo, h]
  simp

/-- The insertion into the cache that a thread comes to, if statements are all it has before it. -/
theorem yetTo_program (hA : ∀ s, ¬ A (.sql s)) (st : Stage) :
    YetTo A (st.program r) ↔
      match st with
      | .findDefine _ _ => A (.findDefineFile (renderPath r.path))
      | .insertDefine _ _ => ∀ d, A (.putDefineFile (renderPath r.path) d)
      | .putDefine d _ => A (.putDefineFile (renderPath r.path) d)
      | .findFile d _ => A (.findFile r.versionId r.groupId d)
      | .insertFile d _ => ∀ id, A (.putFile r.versionId r.groupId d id)
      | .count d _ id => A (.putFile r.versionId r.groupId d id)
      | .update d _ id _ => A (.putFile r.versionId r.groupId d id)
      | .putFile d _ id => A (.putFile r.versionId r.groupId d id) := by
  -- the two insertions a thread can come to; every other stage has only statements before one
  have hdefine : ∀ d f, YetTo A ((Stage.putDefine d f).program r) ↔
      A (.putDefineFile (renderPath r.path) d) := fun _ _ => yetTo_of_not_sql rfl
  have hput : ∀ d f id, YetTo A ((Stage.putFile d f id).program r) ↔
      A (.putFile r.versionId r.groupId d id) := fun _ _ _ => yetTo_of_not_sql rfl
  -- whatever the statements answer, the thread goes on to the same insertion
  have hupdate : ∀ d f id n, YetTo A ((Stage.update d f id n).program r) ↔
      A (.putFile r.versionId r.groupId d id) := fun d f id n =>
    ((or_iff_right (hA _)).trans (and_iff_right rfl)).trans
      ((forall_const Unit).trans (hput d f id))
  have hcount : ∀ d f id, YetTo A ((Stage.count d f id).program r) ↔
      A (.putFile r.versionId r.groupId d id) := fun d f id =>
    ((or_iff_right (hA _)).trans (and_iff_right rfl)).trans
      ((forall_congr' fun n => hupdate d f id n).trans (forall_const ℤ))
  cases st with
  | findDefine d f => exact yetTo_of_not_sql rfl
  | putDefine d f => exact hdefine d f
  | findFile d f => exact yetTo_of_not_sql rfl
  | insertDefine d f =>
    exact ((or_iff_right (hA _)).trans (and_iff_right rfl)).trans
      (forall_congr' fun d => hdefine d f)
  | insertFile d f =>
    exact ((or_iff_right (hA _)).trans (and_iff_right rfl)).trans
      (forall_congr' fun id => hcount d f id)
  | count d f id => exact hcount d f id
  | update d f id n => exact hupdate d f id n
  | putFile d f id => exact hput d f id

end YetTo

/-- A thread has yet to put a path into the cache when it claims the path. -/
theorem yetTo_define (path : Bytes) (pl : Place) :
    YetTo (Op.Fills (.findDefineFile path)) pl.program ↔
      ∃ x, pl.defineClaim = some (path, x) := by
  cases pl with
  | done => exact iff_of_false id (by simp [Place.defineClaim])
  | inside r st =>
    have hA : ∀ s, ¬ Op.Fills (.findDefineFile path) (.sql s) := fun _ => id
    refine (yetTo_program hA st).trans ?_
    cases st <;> simp [Op.Fills, Place.defineClaim]

/-- A thread has yet to put a file into the cache when it claims its key. -/
theorem yetTo_file (v g d : ℤ) (pl : Place) :
    YetTo (Op.Fills (.findFile v g d)) pl.program ↔ ∃ x, pl.fileClaim = some ((v, g, d), x) := by
  cases pl with
  | done => exact iff_of_false id (by simp [Place.fileClaim])
  | inside r st =>
    have hA : ∀ s, ¬ Op.Fills (.findFile v g d) (.sql s) := fun _ => id
    refine (yetTo_program hA st).trans ?_
    cases st <;> simp [Op.Fills, Place.fileClaim]

/-- The clashes of the threads are those of their places. -/
theorem clashes_view (s : Shared ι) (i j : ι) : Clashes s.view i j ↔ s.Clash i j := by
  refine and_congr_right fun _ => ?_
  cases hplace : s.places i with
  | done =>
    rw [Shared.next_done hplace]
    exact iff_of_false (fun ⟨o, ho, _⟩ => by cases ho) id
  | inside r st =>
    rw [Shared.next_inside hplace]
    simp only [Option.some.injEq, exists_eq_left']
    -- only the two lookups fill a cache that another thread may fill
    cases st with
    | findDefine d f => exact and_congr_right fun _ => yetTo_define _ _
    | findFile d f => exact and_congr_right fun _ => yetTo_file _ _ _ _
    | _ => exact iff_of_false And.left id

/-! ### Runs -/

section Runs

variable [DecidableEq ι] {my : MySql} {s : Shared ι}

theorem undisturbed_concat {c : Pool Op Op.Res Unit World ι} {schedule : List ι} {i : ι} :
    Undisturbed my c (schedule ++ [i]) ↔
      Undisturbed my c schedule ∧ ∀ j, ¬ Clashes (c.run (World.step my) schedule) i j := by
  constructor
  · intro h
    exact ⟨fun before j hpre => h before j (hpre.trans (List.prefix_append _ _)),
      h schedule i (List.prefix_refl _)⟩
  · rintro ⟨h, hlast⟩ before j hpre
    rcases List.prefix_concat_iff.mp hpre with heq | hpre
    · obtain ⟨rfl, rfl⟩ := List.append_singleton_inj.mp heq
      exact hlast
    · exact h before j hpre

/-- A key that is crowded stays so: only the `INSERT` of a path changes the paths. -/
theorem crowded_defines_step {path : Bytes}
    (h : Crowded DefineFileRow.filepath s.world.db.defineFiles s.defineClaims path) (i : ι) :
    Crowded DefineFileRow.filepath (s.step my i).world.db.defineFiles (s.step my i).defineClaims
      path := by
  cases hplace : s.places i with
  | done => rwa [Shared.step_done hplace]
  | inside r st =>
    have hclaim : s.defineClaims i = (Place.inside r st).defineClaim :=
      congrArg Place.defineClaim hplace
    rw [Shared.step_inside hplace, Shared.defineClaims, Function.comp_update]
    cases st with
    -- the inserting thread gives up its claim, and the row takes its place
    | insertDefine d f =>
      exact h.insert (r := ⟨_, renderPath r.path, r.name.val, d⟩) hclaim _
    -- elsewhere the rows stay, and no claim that waits for its row ends
    | _ => exact h.update (by simp [hclaim, Place.defineClaim]) _

/-- Only the `INSERT` of a file changes the keys. -/
theorem crowded_files_step {key : ℤ × ℤ × ℤ}
    (h : Crowded FileLink.key s.world.db.links s.fileClaims key) (i : ι) :
    Crowded FileLink.key (s.step my i).world.db.links (s.step my i).fileClaims key := by
  cases hplace : s.places i with
  | done => rwa [Shared.step_done hplace]
  | inside r st =>
    have hclaim : s.fileClaims i = (Place.inside r st).fileClaim :=
      congrArg Place.fileClaim hplace
    rw [Shared.step_inside hplace, Shared.fileClaims, Function.comp_update]
    cases st with
    | insertFile d f =>
      have hinsert := h.insert
        (r := ⟨my.nextId .files FileLink.id s.world.db.links, r.versionId, r.groupId, d, f⟩)
        hclaim (my.nextId .files FileLink.id s.world.db.links)
      rwa [← links_insertFile my] at hinsert
    -- the `UPDATE` of a counter rewrites a row and keeps its key
    | update d f id n =>
      have hlinks := links_updateAmount my s.world.db n f
      exact hlinks.symm ▸ h.update (by simp [hclaim, Place.fileClaim]) _
    | _ => exact h.update (by simp [hclaim, Place.fileClaim]) _

/-- Some key has two rows, or will have. -/
def Shared.Doubled (s : Shared ι) : Prop :=
  (∃ path, Crowded DefineFileRow.filepath s.world.db.defineFiles s.defineClaims path) ∨
    ∃ key, Crowded FileLink.key s.world.db.links s.fileClaims key

theorem Shared.Doubled.step (h : s.Doubled) (i : ι) : (s.step my i).Doubled :=
  h.imp (fun ⟨path, hpath⟩ => ⟨path, crowded_defines_step hpath i⟩)
    fun ⟨key, hkey⟩ => ⟨key, crowded_files_step hkey i⟩

variable {start : Database} {calls : ι → List FileCall}

/-- A clash doubles its key. -/
theorem Uploading.doubled (h : Uploading start calls s) {i j : ι} (hclash : s.Clash i j) :
    (s.step my i).Doubled := by
  obtain ⟨hne, hclash⟩ := hclash
  cases hplace : s.places i with
  | done =>
    rw [hplace] at hclash
    exact hclash.elim
  | inside r st =>
    rw [hplace] at hclash
    rw [Shared.step_inside hplace]
    cases st with
    -- the lookup misses, so `i` claims the path as well as `j`
    | findDefine d f =>
      obtain ⟨hcache, x, hj⟩ := hclash
      simp only [Stage.op, World.step, Stage.next, hcache]
      refine Or.inl ⟨renderPath r.path, ?_⟩
      rw [Shared.defineClaims, Function.comp_update]
      exact h.defines.crowded hne hj
    | findFile d f =>
      obtain ⟨hcache, x, hj⟩ := hclash
      simp only [Stage.op, World.step, Stage.next, hcache]
      refine Or.inr ⟨(r.versionId, r.groupId, d), ?_⟩
      rw [Shared.fileClaims, Function.comp_update]
      exact h.files.crowded hne hj
    | _ => exact hclash.elim

/-- **Every run**: without a clash the threads keep their invariants, and with one a key is
doubled. -/
theorem run_cases (my : MySql) (hs : Uploading start calls s) (hc : Counters s.world.db s.places [])
    (schedule : List ι) :
    (Undisturbed my s.view schedule → Uploading start calls (s.run my schedule) ∧
      Counters (s.run my schedule).world.db (s.run my schedule).places
        (s.view.trace (World.step my) schedule)) ∧
    (¬ Undisturbed my s.view schedule → (s.run my schedule).Doubled) := by
  induction schedule using List.reverseRecOn with
  | nil =>
    refine ⟨fun _ => ⟨hs, hc⟩, fun h => absurd (fun before i hpre => ?_) h⟩
    exact absurd (List.prefix_nil.mp hpre) (List.append_ne_nil_of_right_ne_nil _ (by simp))
  | append_singleton schedule i ih =>
    have hrun : s.run my (schedule ++ [i]) = (s.run my schedule).step my i := by
      rw [Shared.run, List.foldl_append]
      rfl
    have hview := Shared.run_view my s schedule
    rw [undisturbed_concat, hview, Pool.trace_concat, hview, hrun]
    simp only [clashes_view]
    constructor
    -- the turn does not clash: the invariants go on
    · rintro ⟨hundisturbed, hlast⟩
      obtain ⟨huploading, hcounters⟩ := ih.1 hundisturbed
      refine ⟨huploading.step my hlast, ?_⟩
      cases hplace : (s.run my schedule).places i with
      | done =>
        rw [Shared.step_done hplace, Shared.next_done hplace]
        simpa using hcounters
      | inside r st =>
        rw [Shared.next_inside hplace]
        exact hcounters.step my huploading hplace
    -- a clash now doubles a key, and one before has doubled it already
    · intro hdisturbed
      by_cases hundisturbed : Undisturbed my s.view schedule
      · obtain ⟨j, hclash⟩ : ∃ j, (s.run my schedule).Clash i j := by
          by_contra hnone
          exact hdisturbed ⟨hundisturbed, not_exists.mp hnone⟩
        exact (ih.1 hundisturbed).1.doubled hclash
      · exact (ih.2 hundisturbed).step i

end Runs

/-! ### The calls one after another -/

/-- The call, as one of the calls of a server. -/
def FileCall.toCall (c : FileCall) : Call :=
  .addFile c.versionId c.groupId c.file

/-- Paths are never lost. -/
theorem Database.Grows.paths_le {db db' : Database} (h : db.Grows db') : db.paths ≤ db'.paths :=
  fun _ _ _ ⟨f, hf⟩ => ⟨f, hf.mono h⟩

/-- The define paths of tables that stored `new`. -/
theorem Stores.definedPaths_eq {db db' : Database} {new : PathStore} (h : Stores db new db') :
    db'.definedPaths = db.definedPaths ∪ {p | ∃ v g, p ∈ new v g} := by
  refine Set.Subset.antisymm h.defined ?_
  rintro p (⟨d, hd⟩ | ⟨v, g, hp⟩)
  · exact ⟨d, hd.mono h.grows⟩
  · have hstored : p ∈ db'.paths v g := h.paths ▸ Or.inr hp
    obtain ⟨f, l, -, -, -, hdefine, -⟩ := hstored
    exact ⟨l.defineFileId, hdefine⟩

/-- Tables that stored the same paths on the same tables, and no versions and groups. -/
theorem Stores.renames {db db₁ db₂ : Database} {new : PathStore} (h₁ : Stores db new db₁)
    (h₂ : Stores db new db₂) (hversions : db₁.versions = db₂.versions)
    (hgroups : db₁.fileGroups = db₂.fileGroups) : (keeping db₁ db₂).Renames db₁ db₂ := by
  refine renames_of_paths h₁.forest h₂.forest hversions hgroups ?_ ?_
  · rw [h₁.paths, h₂.paths]
  · rw [h₁.definedPaths_eq, h₂.definedPaths_eq]

/-- `addFile` writes no version and no group. -/
theorem addFile_frame (my : MySql) (v g : ℤ) (file : FileInfo) (db : Database) :
    (run (Database.step my) (addFile v g file) db).2.versions = db.versions ∧
      (run (Database.step my) (addFile v g file) db).2.fileGroups = db.fileGroups := by
  have huses : (addFile v g file).Uses (Op.OfAddFile fun _ => True) := by
    rw [addFile_eq]
    exact uses_addFileLoop v g _ (fun _ _ _ _ => trivial) trivial 0 0
  let Frame : Database → Prop := fun db' =>
    db'.versions = db.versions ∧ db'.fileGroups = db.fileGroups
  have hstart : Frame db := ⟨rfl, rfl⟩
  refine run_of_uses (Database.step my) (fun o db' ho h => ?_) huses hstart
  cases o with
  | sql s =>
    cases s with
    | insertVersion name => exact ho.elim
    | insertGroup name => exact ho.elim
    | _ => exact h
  | _ => exact h

section Serial

variable (my : MySql) (before : List Call)

/-- What calls of `addFile` store behind other calls. -/
theorem stores_reached (order : List FileCall) :
    Stores (reached my before).db (callPaths (order.map FileCall.toCall))
        (reached my (before ++ order.map FileCall.toCall)).db ∧
      (reached my (before ++ order.map FileCall.toCall)).db.versions
        = (reached my before).db.versions ∧
      (reached my (before ++ order.map FileCall.toCall)).db.fileGroups
        = (reached my before).db.fileGroups := by
  induction order using List.reverseRecOn with
  | nil =>
    have hnone : callPaths [] = ⊥ := by
      funext v g
      ext p
      simp [callPaths]
    rw [List.map_nil, List.append_nil, hnone]
    exact ⟨Stores.refl (paths_reached my before).1, rfl, rfl⟩
  -- the call stores its paths on top of those of the calls before it
  | append_singleton order c ih =>
    obtain ⟨hstores, hversions, hgroups⟩ := ih
    obtain ⟨hversions', hgroups'⟩ := addFile_frame my c.versionId c.groupId c.file
      (reached my (before ++ order.map FileCall.toCall)).db
    rw [List.map_append, ← List.append_assoc, List.map_singleton, reached_concat_db,
      callPaths_concat]
    exact ⟨hstores.trans (stores_call my hstores.forest c.toCall), hversions'.trans hversions,
      hgroups'.trans hgroups⟩

end Serial

/-! ### Serialisable runs -/

/-- The tables are those of the calls of the threads one after another in some order, up to a
renaming of ids: no two rows for a path, no two rows for a version, a group and a define id, and
every counter is right. -/
structure Serialisable (my : MySql) (before : List Call) {n : ℕ} (calls : Fin n → List FileCall)
    (db : Database) : Prop where
  order : ∃ order : List FileCall, order.Perm ((List.finRange n).flatMap calls) ∧
    ∃ ρ : Renaming, ρ.Renames (reached my (before ++ order.map FileCall.toCall)).db db
  filepaths : (db.defineFiles.map DefineFileRow.filepath).Nodup
  fileKeys : (db.links.map FileLink.key).Nodup
  counted : db.Counted

variable {n : ℕ} {calls : Fin n → List FileCall}

/-- The calls of the threads, in whatever order, upload the paths of the threads. -/
theorem callPaths_flatMap :
    callPaths (((List.finRange n).flatMap calls).map FileCall.toCall) = callsPaths calls := by
  funext v g
  ext p
  constructor
  · rintro ⟨file, hfile, hp⟩
    obtain ⟨c, hc, heq⟩ := List.mem_map.mp hfile
    obtain ⟨rfl, rfl, rfl⟩ := Call.addFile.inj heq
    obtain ⟨i, -, hi⟩ := List.mem_flatMap.mp hc
    exact ⟨i, c, hi, rfl, rfl, hp⟩
  · rintro ⟨i, c, hi, rfl, rfl, hp⟩
    exact ⟨c.file, List.mem_map.mpr ⟨c, List.mem_flatMap.mpr ⟨i, List.mem_finRange i, hi⟩, rfl⟩, hp⟩

section Finished

variable {start : Database} {s : Shared (Fin n)} (h : Uploading start calls s)
  (hdone : ∀ i, s.places i = .done)
include h hdone

/-- Threads that have finished have stored their calls. -/
theorem Uploading.stores (hcounted : s.world.db.Counted) :
    Stores start (callsPaths calls) s.world.db := by
  have hpaths := h.progress.paths
  rw [paths_recounted] at hpaths
  have hgrows := h.progress.grows.trans (recounted_grows s.world.db)
  refine ⟨pathForest_iff.mpr ⟨h.progress.forest, hcounted⟩, hgrows,
    le_antisymm hpaths (sup_le hgrows.paths_le ?_), h.progress.defined⟩
  -- a thread that is done holds every path of its calls
  rintro _ _ p ⟨i, c, hc, rfl, rfl, hp⟩
  have hholds := h.places i
  rw [hdone i] at hholds
  have hstored := hholds c hc p hp
  rwa [paths_recounted] at hstored

end Finished

/-- **Serialisability.** The tables that threads leave behind are those of the calls one after
another exactly if no two lookups clashed and no last `UPDATE` of a counter was overtaken. -/
theorem serialisable_iff (my : MySql) (before : List Call) {n : ℕ} (calls : Fin n → List FileCall)
    (schedule : List (Fin n))
    (hfinished : ((threads (reached my before) calls).run (World.step my) schedule).Finished) :
    Serialisable my before calls
        ((threads (reached my before) calls).run (World.step my) schedule).state.db ↔
      Undisturbed my (threads (reached my before) calls) schedule ∧
        ∀ f, f ≠ 0 →
          ¬ Overtaken ((threads (reached my before) calls).trace (World.step my) schedule) f := by
  have hforest := (paths_reached my before).1
  have hstart := uploading_start (synced_reached my before) hforest calls
  have hcases := run_cases my hstart (counters_start hforest calls) schedule
  rw [← Shared.view_start, Shared.run_view, Shared.finished_iff] at hfinished
  rw [← Shared.view_start, Shared.run_view]
  generalize hs : (Shared.start (reached my before) calls).run my schedule = s at *
  -- without a clash the counters are right if no last `UPDATE` was overtaken
  have hcounted_iff : Undisturbed my (Shared.start (reached my before) calls).view schedule →
      (s.world.db.Counted ↔ ∀ f, f ≠ 0 → ¬ Overtaken
        ((Shared.start (reached my before) calls).view.trace (World.step my) schedule) f) := by
    intro hundisturbed
    obtain ⟨huploading, hcounters⟩ := hcases.1 hundisturbed
    refine hcounters.counted_iff hfinished fun row hrow => ne_of_gt ?_
    have hpos := huploading.progress.forest.keyed.fileIds.pos
    rw [links_recounted] at hpos
    exact hpos _ (List.mem_map_of_mem hrow)
  constructor
  · intro hser
    have hundisturbed : Undisturbed my (Shared.start (reached my before) calls).view schedule := by
      by_contra hdisturbed
      rcases hcases.2 hdisturbed with ⟨path, hpath⟩ | ⟨key, hkey⟩
      -- no thread claims anything any more, so a crowded key has two rows
      · exact hpath.not_nodup (fun i => congrArg Place.defineClaim (hfinished i)) hser.filepaths
      · exact hkey.not_nodup (fun i => congrArg Place.fileClaim (hfinished i)) hser.fileKeys
    exact ⟨hundisturbed, (hcounted_iff hundisturbed).mp hser.counted⟩
  · rintro ⟨hundisturbed, hnone⟩
    have huploading := (hcases.1 hundisturbed).1
    have hcounted := (hcounted_iff hundisturbed).mpr hnone
    -- the threads and the calls in the order of the threads have stored the same paths
    have hstores := huploading.stores hfinished hcounted
    obtain ⟨hserial, hversions, hgroups⟩ :=
      stores_reached my before ((List.finRange n).flatMap calls)
    rw [callPaths_flatMap] at hserial
    exact
      { order := ⟨_, List.Perm.refl _, _, hserial.renames hstores
          (hversions.trans huploading.versions.symm) (hgroups.trans huploading.fileGroups.symm)⟩
        filepaths := hstores.forest.keyed.filepaths
        fileKeys := hstores.forest.keyed.fileKeys
        counted := hcounted }

/-- The calls before the threads start: one version, one group and one directory. -/
def prepared : List Call :=
  [.findVersionOrCreate (lit "1.0"), .findGroupOrCreate (lit "bin"),
    .addFile 1 1 (fileInfo (lit "d"))]

/-- Two threads look up the same new path before one of them inserts it. -/
def racingLookups : List (Fin 2) :=
  [0, 1] ++ List.replicate 7 0 ++ List.replicate 7 1

/-- **Two threads that upload the same file** leave two rows for its path. -/
theorem racingLookups_not_serialisable :
    ¬ ∀ (my : MySql) (before : List Call) (n : ℕ) (calls : Fin n → List FileCall)
        (schedule : List (Fin n)),
      ((threads (reached my before) calls).run (World.step my) schedule).Finished →
        Serialisable my before calls
          ((threads (reached my before) calls).run (World.step my) schedule).state.db := by
  intro h
  have hser := h MySql.innodb prepared 2 (fun _ => [⟨1, 1, fileInfo (lit "a")⟩]) racingLookups
    (by unfold Pool.Finished; decide +kernel)
  exact absurd hser.filepaths (by decide +kernel)

/-- The two threads clash. -/
theorem serialisable_iff_racingLookups :
    ¬ (Undisturbed MySql.innodb (threads (reached MySql.innodb prepared)
          fun _ : Fin 2 => [⟨1, 1, fileInfo (lit "a")⟩]) racingLookups ∧
        ∀ f, f ≠ 0 → ¬ Overtaken ((threads (reached MySql.innodb prepared)
          fun _ : Fin 2 => [⟨1, 1, fileInfo (lit "a")⟩]).trace (World.step MySql.innodb)
            racingLookups) f) := by
  intro hcondition
  have hser := (serialisable_iff MySql.innodb prepared
    (fun _ : Fin 2 => [⟨1, 1, fileInfo (lit "a")⟩]) racingLookups
    (by unfold Pool.Finished; decide +kernel)).mpr hcondition
  exact absurd hser.filepaths (by decide +kernel)

/-- Two threads upload two files to one directory. The first one counts its children, then the
second one runs, and then the first one writes its count. -/
example : ¬ ((threads (reached MySql.innodb prepared) fun i : Fin 2 =>
      [⟨1, 1, fileInfo (if i = 0 then lit "d/a" else lit "d/b")⟩]).run (World.step MySql.innodb)
    (List.replicate 8 0 ++ List.replicate 10 1 ++ List.replicate 2 0)).state.db.Counted := by
  unfold Database.Counted
  decide +kernel

end WebDiff
