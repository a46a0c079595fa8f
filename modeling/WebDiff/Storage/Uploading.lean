import WebDiff.Framework.Reservations
import WebDiff.Storage.Recounted
import WebDiff.Storage.Reupload
import WebDiff.Storage.Threads

/-!
# What uploading threads keep

The invariant of threads that upload side by side (`Uploading`): between any two of their steps the
tables are a forest of paths but for the counters, they hold nothing that was not there or is not
being uploaded, every thread carries ids of the path it has read so far and has stored its earlier
calls, and every row is in the cache or on its way there (`Reservation.Reserved`). A step keeps it
unless it is the lookup of a key that another thread has missed and not yet put into the cache
(`Shared.Clash`).
-/

namespace WebDiff

open Program Table Reservation

/-! ### What a thread has stored -/

/-- The paths of the call are stored. -/
def FileCall.Stored (db : Database) (c : FileCall) : Prop :=
  ∀ p ∈ Path.prefixes c.file.path, p ∈ db.paths c.versionId c.groupId

/-- The paths that threads upload. -/
def callsPaths {ι : Type} (calls : ι → List FileCall) : PathStore :=
  fun v g => {p | ∃ i, ∃ c ∈ calls i, c.versionId = v ∧ c.groupId = g ∧
    p ∈ Path.prefixes c.file.path}

/-- The round belongs to one of the calls of the thread, and the calls before it are stored. -/
def Round.Within (calls : List FileCall) (db : Database) (r : Round) : Prop :=
  ∃ done file, calls = done ++ ⟨r.versionId, r.groupId, file⟩ :: r.later ∧
    file.path = r.path ++ r.rest ∧ ∀ c ∈ done, c.Stored db

/-- The variables of the loop are ids of the path read so far. -/
def Stage.Sound (db : Database) (r : Round) : Stage → Prop
  | .findDefine d f => db.DefineId r.read d ∧ db.FileId r.versionId r.groupId r.read f
  | .insertDefine d f => db.DefineId r.read d ∧ db.FileId r.versionId r.groupId r.read f
  | .putDefine d f => db.HasDefine r.path d ∧ db.FileId r.versionId r.groupId r.read f
  | .findFile d f => db.HasDefine r.path d ∧ db.FileId r.versionId r.groupId r.read f
  | .insertFile d f => db.HasDefine r.path d ∧ db.FileId r.versionId r.groupId r.read f
  | .count d f id => db.HasDefine r.path d ∧ db.FileId r.versionId r.groupId r.read f ∧
      db.HasFile r.versionId r.groupId r.path id
  | .update d f id _ => db.HasDefine r.path d ∧ db.FileId r.versionId r.groupId r.read f ∧
      db.HasFile r.versionId r.groupId r.path id
  | .putFile d f id => db.HasDefine r.path d ∧ db.FileId r.versionId r.groupId r.read f ∧
      db.HasFile r.versionId r.groupId r.path id

/-- What holds of the tables while a thread with these calls stands at the place. -/
def Place.Holds (calls : List FileCall) (db : Database) : Place → Prop
  | .done => ∀ c ∈ calls, c.Stored db
  | .inside r st => r.Within calls db ∧ st.Sound db r

section Holds

variable {calls : List FileCall} {db db' : Database}

section Grows

variable (hgrows : db.Grows db')
include hgrows

theorem FileCall.Stored.mono {c : FileCall} (h : c.Stored db) : c.Stored db' := by
  intro p hp
  obtain ⟨f, hf⟩ := h p hp
  exact ⟨f, hf.mono hgrows⟩

theorem Round.Within.mono {r : Round} (h : r.Within calls db) : r.Within calls db' := by
  obtain ⟨done, file, hcalls, hpath, hdone⟩ := h
  exact ⟨done, file, hcalls, hpath, fun c hc => (hdone c hc).mono hgrows⟩

theorem Stage.Sound.mono {r : Round} {st : Stage} (h : st.Sound db r) : st.Sound db' r := by
  -- a stage knows ids of the directory and of the path, and ids are kept
  cases st with
  | findDefine d f => exact ⟨h.1.mono hgrows, h.2.mono hgrows⟩
  | insertDefine d f => exact ⟨h.1.mono hgrows, h.2.mono hgrows⟩
  | putDefine d f => exact ⟨h.1.mono hgrows, h.2.mono hgrows⟩
  | findFile d f => exact ⟨h.1.mono hgrows, h.2.mono hgrows⟩
  | insertFile d f => exact ⟨h.1.mono hgrows, h.2.mono hgrows⟩
  | count d f id => exact ⟨h.1.mono hgrows, h.2.1.mono hgrows, h.2.2.mono hgrows⟩
  | update d f id n => exact ⟨h.1.mono hgrows, h.2.1.mono hgrows, h.2.2.mono hgrows⟩
  | putFile d f id => exact ⟨h.1.mono hgrows, h.2.1.mono hgrows, h.2.2.mono hgrows⟩

/-- What holds at a place is not disturbed by other threads. -/
theorem Place.Holds.mono {pl : Place} (h : pl.Holds calls db) : pl.Holds calls db' := by
  cases pl with
  | done => exact fun c hc => (h c hc).mono hgrows
  | inside r st => exact ⟨h.1.mono hgrows, h.2.mono hgrows⟩

end Grows

/-- The beginning of the calls `later`, behind calls that are stored. -/
theorem holds_begin {done later : List FileCall} (hcalls : calls = done ++ later)
    (hdone : ∀ c ∈ done, c.Stored db) : (Place.begin later).Holds calls db := by
  induction later generalizing done with
  | nil =>
    rw [List.append_nil] at hcalls
    exact hcalls ▸ hdone
  | cons c later ih =>
    unfold Place.begin
    split
    · next hpath =>
      refine ih (hcalls.trans (List.append_cons ..)) fun c' hc' => ?_
      rcases List.mem_append.mp hc' with hc' | hc'
      · exact hdone c' hc'
      · -- a call with an empty path stores nothing
        obtain rfl := List.mem_singleton.mp hc'
        rintro p ⟨hne, hpre⟩
        rw [hpath] at hpre
        exact absurd (List.prefix_nil.mp hpre) hne
    · next name rest hpath =>
      exact ⟨⟨done, c.file, hcalls, hpath, hdone⟩, Or.inl ⟨rfl, rfl⟩, Or.inl ⟨rfl, rfl⟩⟩

/-- Behind a round whose path is stored. -/
theorem holds_next (h : PathForest db) {r : Round} (hwithin : r.Within calls db) {d f : ℤ}
    (hd : db.HasDefine r.path d) (hf : db.HasFile r.versionId r.groupId r.path f) :
    (r.next d f).Holds calls db := by
  obtain ⟨done, file, hcalls, hpath, hdone⟩ := hwithin
  unfold Round.next
  cases hrest : r.rest with
  -- the call is over: with its path every path on the way to it is stored
  | nil =>
    refine holds_begin (hcalls.trans (List.append_cons ..)) fun c hc => ?_
    rcases List.mem_append.mp hc with hc | hc
    · exact hdone c hc
    · obtain rfl := List.mem_singleton.mp hc
      rintro p ⟨hne, hpre⟩
      rw [hrest, List.append_nil] at hpath
      exact h.paths_of_prefix ⟨f, hf⟩ hne (hpath ▸ hpre)
  -- the ids found in this round are those of the directory of the next one
  | cons name rest =>
    refine ⟨⟨done, file, hcalls, ?_, hdone⟩, Or.inr hd, Or.inr hf⟩
    rw [hpath, hrest]
    exact List.append_cons ..

/-- The path of a round is uploaded. -/
theorem Round.Within.mem_callsPaths {ι : Type} {calls : ι → List FileCall} {i : ι} {r : Round}
    (h : r.Within (calls i) db) : r.path ∈ callsPaths calls r.versionId r.groupId := by
  obtain ⟨done, file, hcalls, hpath, -⟩ := h
  refine ⟨i, ⟨r.versionId, r.groupId, file⟩, ?_, rfl, rfl, ?_, ?_⟩
  · rw [hcalls]
    exact List.mem_append_right _ List.mem_cons_self
  · exact List.append_ne_nil_of_right_ne_nil _ (List.cons_ne_nil _ _)
  · rw [hpath]
    exact List.prefix_append _ _

end Holds

/-! ### What the threads have stored -/

/-- The tables `db` hold what `start` holds, and otherwise only paths of `uploads`. -/
structure Progress (start : Database) (uploads : PathStore) (db : Database) : Prop where
  forest : PathForest db
  grows : start.Grows db
  paths : db.paths ≤ start.paths ⊔ uploads
  defined : db.definedPaths ⊆ start.definedPaths ∪ {p | ∃ v g, p ∈ uploads v g}

section Progress

variable {start db db' : Database} {uploads : PathStore} (h : Progress start uploads db)
include h

theorem Progress.define {p : Path} (hdefines : Defines db p db') {v g : ℤ}
    (hp : p ∈ uploads v g) : Progress start uploads db' := by
  refine ⟨hdefines.forest, h.grows.trans hdefines.grows, hdefines.paths ▸ h.paths, fun q hq => ?_⟩
  -- a path is defined because it is uploaded, or was before
  rcases hdefines.defined hq with rfl | hq
  · exact Or.inr ⟨v, g, hp⟩
  · exact h.defined hq

theorem Progress.store {v g : ℤ} {p : Path} (hstores : Stores db (.single v g {p}) db')
    (hp : p ∈ uploads v g) : Progress start uploads db' := by
  refine ⟨hstores.forest, h.grows.trans hstores.grows, ?_, fun q hq => ?_⟩
  · rw [hstores.paths]
    refine sup_le h.paths ?_
    rintro v' g' q ⟨rfl, rfl, rfl⟩
    exact Or.inr hp
  · rcases hstores.defined hq with hq | ⟨v', g', rfl, rfl, rfl⟩
    · exact h.defined hq
    · exact Or.inr ⟨v', g', hp⟩

end Progress

/-! ### Claims -/

/-- The path the thread has missed and not put into the cache yet, with its id once it has one. -/
def Place.defineClaim : Place → Option (Bytes × Option ℤ)
  | .inside r (.insertDefine _ _) => some (renderPath r.path, none)
  | .inside r (.putDefine d _) => some (renderPath r.path, some d)
  | _ => none

/-- The key of `webdiff_files` the thread has missed and not put into the cache yet, with the id of
its row once it is there. -/
def Place.fileClaim : Place → Option ((ℤ × ℤ × ℤ) × Option ℤ)
  | .inside r (.insertFile d _) => some ((r.versionId, r.groupId, d), none)
  | .inside r (.count d _ id) => some ((r.versionId, r.groupId, d), some id)
  | .inside r (.update d _ id _) => some ((r.versionId, r.groupId, d), some id)
  | .inside r (.putFile d _ id) => some ((r.versionId, r.groupId, d), some id)
  | _ => none

/-- In front of a call nothing is claimed. -/
theorem claims_begin (calls : List FileCall) :
    (Place.begin calls).defineClaim = none ∧ (Place.begin calls).fileClaim = none := by
  rcases begin_cases calls with h | ⟨r, d, f, h⟩
  · rw [h]
    exact ⟨rfl, rfl⟩
  · rw [h]
    exact ⟨rfl, rfl⟩

/-- Nor is it in front of a round. -/
theorem claims_next (r : Round) (d f : ℤ) :
    (r.next d f).defineClaim = none ∧ (r.next d f).fileClaim = none := by
  rcases next_cases r d f with h | ⟨r', d', f', h⟩
  · rw [h]
    exact ⟨rfl, rfl⟩
  · rw [h]
    exact ⟨rfl, rfl⟩

namespace Shared

variable {ι : Type}

/-- The paths the threads claim. -/
def defineClaims (s : Shared ι) : Claims ι Bytes :=
  Place.defineClaim ∘ s.places

/-- The keys of `webdiff_files` the threads claim. -/
def fileClaims (s : Shared ι) : Claims ι (ℤ × ℤ × ℤ) :=
  Place.fileClaim ∘ s.places

/-- The thread `i` is about to miss a key that the thread `j` claims. -/
def Clash (s : Shared ι) (i j : ι) : Prop :=
  j ≠ i ∧
    match s.places i with
    | .inside r (.findDefine _ _) =>
      s.world.caches.defineFileIds (renderPath r.path) = none ∧
        ∃ x, s.defineClaims j = some (renderPath r.path, x)
    | .inside r (.findFile d _) =>
      s.world.caches.fileIds.findFileId r.versionId r.groupId d = -1 ∧
        ∃ x, s.fileClaims j = some ((r.versionId, r.groupId, d), x)
    | _ => False

end Shared

/-! ### The invariant -/

/-- Threads upload the calls, on tables that were `start` in the beginning. -/
structure Uploading {ι : Type} (start : Database) (calls : ι → List FileCall) (s : Shared ι) :
    Prop where
  versions : s.world.db.versions = start.versions
  fileGroups : s.world.db.fileGroups = start.fileGroups
  progress : Progress start (callsPaths calls) s.world.db.recounted
  places : ∀ i, (s.places i).Holds (calls i) s.world.db.recounted
  defines : Reserved DefineFileRow.filepath DefineFileRow.id s.world.db.defineFiles
    s.world.caches.defineFileIds s.defineClaims
  files : Reserved FileLink.key FileLink.id s.world.db.links s.world.caches.fileIds.lookup
    s.fileClaims

section Uploading

variable {ι : Type} {start : Database} {calls : ι → List FileCall}

/-- Threads in front of their first calls. -/
theorem uploading_start {w : World} (hw : Synced w) (hforest : PathForest w.db)
    (calls : ι → List FileCall) : Uploading w.db calls (Shared.start w calls) where
  versions := rfl
  fileGroups := rfl
  progress := by
    refine ⟨(pathForest_iff.mp hforest).1, grows_recounted w.db, ?_, Set.subset_union_left⟩
    rw [Shared.start, paths_recounted]
    exact le_sup_left
  places := fun _ => holds_begin rfl fun _ hc => absurd hc List.not_mem_nil
  defines := Reserved.start hw.cached.defineFileIds fun i => (claims_begin (calls i)).1
  files := Reserved.start hw.cached.fileIds fun i => (claims_begin (calls i)).2

variable [DecidableEq ι] {s : Shared ι} (h : Uploading start calls s)
include h

omit [DecidableEq ι] in
/-- No row has the id `-1`. -/
theorem Uploading.findFileId_eq {v g d : ℤ} :
    s.world.caches.fileIds.findFileId v g d = -1 ↔
      s.world.caches.fileIds.lookup (v, g, d) = none := by
  rw [ModelCacheFilesVersion.findFileId_eq]
  cases hid : s.world.caches.fileIds.lookup (v, g, d) with
  | none => simp
  | some id =>
    -- a cached id is that of a row, and these are positive
    obtain ⟨l, hl, -, rfl⟩ := h.files.cached hid
    rw [← links_recounted] at hl
    have hpos := h.progress.forest.keyed.fileIds.pos l hl
    simp only [Option.getD_some, reduceCtorEq, iff_false]
    omega

/-- A step of the thread `i` to the place `pl`, in a world `w` with tables that have grown. -/
theorem Uploading.move {i : ι} {w : World} {pl : Place}
    (hversions : w.db.versions = s.world.db.versions)
    (hgroups : w.db.fileGroups = s.world.db.fileGroups)
    (hprogress : Progress start (callsPaths calls) w.db.recounted)
    (hgrows : s.world.db.recounted.Grows w.db.recounted)
    (hpl : pl.Holds (calls i) w.db.recounted)
    (hdefines : Reserved DefineFileRow.filepath DefineFileRow.id w.db.defineFiles
      w.caches.defineFileIds (Function.update s.defineClaims i pl.defineClaim))
    (hfiles : Reserved FileLink.key FileLink.id w.db.links w.caches.fileIds.lookup
      (Function.update s.fileClaims i pl.fileClaim)) :
    Uploading start calls ⟨w, Function.update s.places i pl⟩ where
  versions := hversions.trans h.versions
  fileGroups := hgroups.trans h.fileGroups
  progress := hprogress
  places := (Function.forall_update_iff s.places fun j pl => pl.Holds (calls j) w.db.recounted).mpr
    ⟨hpl, fun j _ => (h.places j).mono hgrows⟩
  defines := by
    rw [Shared.defineClaims, Function.comp_update]
    exact hdefines
  files := by
    rw [Shared.fileClaims, Function.comp_update]
    exact hfiles

/-- The same in a world that stays what it is. -/
theorem Uploading.look {i : ι} {pl : Place} (hpl : pl.Holds (calls i) s.world.db.recounted)
    (hdefines : Reserved DefineFileRow.filepath DefineFileRow.id s.world.db.defineFiles
      s.world.caches.defineFileIds (Function.update s.defineClaims i pl.defineClaim))
    (hfiles : Reserved FileLink.key FileLink.id s.world.db.links s.world.caches.fileIds.lookup
      (Function.update s.fileClaims i pl.fileClaim)) :
    Uploading start calls ⟨s.world, Function.update s.places i pl⟩ :=
  h.move rfl rfl h.progress (Database.Grows.refl _) hpl hdefines hfiles

/-! ### The steps -/

section Steps

variable (my : MySql) {i : ι} {r : Round}

/-- The lookup of a path. -/
theorem Uploading.findDefine {d f : ℤ} (hplace : s.places i = .inside r (.findDefine d f))
    (hfree : ∀ j, ¬ s.Clash i j) : Uploading start calls (s.step my i) := by
  obtain ⟨hwithin, hd, hf⟩ : (Place.inside r (.findDefine d f)).Holds (calls i) _ :=
    hplace ▸ h.places i
  have hdefine : s.defineClaims i = none := congrArg Place.defineClaim hplace
  have hfile : s.fileClaims i = none := congrArg Place.fileClaim hplace
  rw [Shared.step_inside hplace]
  simp only [Stage.op, World.step, Stage.next]
  cases hcache : s.world.caches.defineFileIds (renderPath r.path) with
  | some id =>
    exact h.look ⟨hwithin, h.defines.cached hcache, hf⟩ (h.defines.stay hdefine)
      (h.files.stay hfile)
  | none =>
    -- a miss claims the path, which nobody else claims: there is no clash
    refine h.look ⟨hwithin, hd, hf⟩ (h.defines.miss hdefine hcache fun j x hne hj => ?_)
      (h.files.stay hfile)
    refine hfree j ⟨hne, ?_⟩
    rw [hplace]
    exact ⟨hcache, x, hj⟩

/-- The `INSERT` of a path. -/
theorem Uploading.insertDefine {d f : ℤ} (hplace : s.places i = .inside r (.insertDefine d f)) :
    Uploading start calls (s.step my i) := by
  obtain ⟨hwithin, hd, hf⟩ : (Place.inside r (.insertDefine d f)).Holds (calls i) _ :=
    hplace ▸ h.places i
  have hdefine : s.defineClaims i = some (renderPath r.path, none) :=
    congrArg Place.defineClaim hplace
  have hfile : s.fileClaims i = none := congrArg Place.fileClaim hplace
  -- a claimed path without a row has none yet
  have hwithin' := hwithin.mem_callsPaths
  obtain ⟨hdefines, hnew⟩ :=
    defines_recounted my h.progress.forest hd (h.defines.fresh hdefine)
  rw [Shared.step_inside hplace]
  exact h.move rfl rfl (h.progress.define hdefines hwithin') hdefines.grows
    ⟨hwithin.mono hdefines.grows, hnew, hf.mono hdefines.grows⟩
    (h.defines.insert (r := ⟨_, renderPath r.path, r.name.val, d⟩) hdefine) (h.files.stay hfile)

/-- The insertion of a path into the cache. -/
theorem Uploading.putDefine {d f : ℤ} (hplace : s.places i = .inside r (.putDefine d f)) :
    Uploading start calls (s.step my i) := by
  obtain ⟨hwithin, hd, hf⟩ : (Place.inside r (.putDefine d f)).Holds (calls i) _ :=
    hplace ▸ h.places i
  have hdefine : s.defineClaims i = some (renderPath r.path, some d) :=
    congrArg Place.defineClaim hplace
  have hfile : s.fileClaims i = none := congrArg Place.fileClaim hplace
  rw [Shared.step_inside hplace]
  exact h.move rfl rfl h.progress (Database.Grows.refl _) ⟨hwithin, hd, hf⟩ (h.defines.put hdefine)
    (h.files.stay hfile)

/-- The lookup of a file. -/
theorem Uploading.findFile {d f : ℤ} (hplace : s.places i = .inside r (.findFile d f))
    (hfree : ∀ j, ¬ s.Clash i j) : Uploading start calls (s.step my i) := by
  obtain ⟨hwithin, hd, hf⟩ : (Place.inside r (.findFile d f)).Holds (calls i) _ :=
    hplace ▸ h.places i
  have hdefine : s.defineClaims i = none := congrArg Place.defineClaim hplace
  have hfile : s.fileClaims i = none := congrArg Place.fileClaim hplace
  rw [Shared.step_inside hplace]
  simp only [Stage.op, World.step, Stage.next]
  by_cases hid : s.world.caches.fileIds.findFileId r.versionId r.groupId d ≠ -1
  · rw [if_pos hid]
    -- a hit is the id of the row of this path
    have hcache := mt h.findFileId_eq.mpr hid
    obtain ⟨id, hcache⟩ := Option.ne_none_iff_exists'.mp hcache
    obtain ⟨l, hl, hkey, rfl⟩ := h.files.cached hcache
    obtain ⟨hv, hg, rfl⟩ : l.versionId = r.versionId ∧ l.fileGroupId = r.groupId ∧
        l.defineFileId = d := by simpa [FileLink.key] using hkey
    have hrow : s.world.db.recounted.HasFile r.versionId r.groupId r.path l.id :=
      ⟨l, (links_recounted _).symm ▸ hl, hv, hg, hd, rfl⟩
    rw [ModelCacheFilesVersion.findFileId_eq, hcache, Option.getD_some]
    obtain ⟨hdefine', hfile'⟩ := claims_next r l.defineFileId l.id
    exact h.look (holds_next h.progress.forest hwithin hd hrow)
      (h.defines.stay (hdefine.trans hdefine'.symm)) (h.files.stay (hfile.trans hfile'.symm))
  · rw [if_neg hid]
    -- a miss claims the key
    have hcache := h.findFileId_eq.mp (not_not.mp hid)
    refine h.look ⟨hwithin, hd, hf⟩ (h.defines.stay hdefine)
      (h.files.miss hfile hcache fun j x hne hj => ?_)
    refine hfree j ⟨hne, ?_⟩
    rw [hplace]
    exact ⟨not_not.mp hid, x, hj⟩

/-- The `INSERT` of a file. -/
theorem Uploading.insertFile {d f : ℤ} (hplace : s.places i = .inside r (.insertFile d f)) :
    Uploading start calls (s.step my i) := by
  obtain ⟨hwithin, hd, hf⟩ : (Place.inside r (.insertFile d f)).Holds (calls i) _ :=
    hplace ▸ h.places i
  have hdefine : s.defineClaims i = none := congrArg Place.defineClaim hplace
  have hfile : s.fileClaims i = some ((r.versionId, r.groupId, d), none) :=
    congrArg Place.fileClaim hplace
  -- the counter of the parent may be wrong until the `UPDATE`, so the tables are recounted
  obtain ⟨hstores, hnew⟩ := stores_recounted my h.progress.forest hd hf (h.files.fresh hfile)
  have hfiles := h.files.insert
    (r := ⟨my.nextId .files FileLink.id s.world.db.links, r.versionId, r.groupId, d, f⟩) hfile
  rw [← links_insertFile my] at hfiles
  rw [Shared.step_inside hplace]
  exact h.move rfl rfl (h.progress.store hstores hwithin.mem_callsPaths) hstores.grows
    ⟨hwithin.mono hstores.grows, hd.mono hstores.grows, hf.mono hstores.grows, hnew⟩
    (h.defines.stay hdefine) hfiles

/-- The `COUNT` of the children. -/
theorem Uploading.count {d f id : ℤ} (hplace : s.places i = .inside r (.count d f id)) :
    Uploading start calls (s.step my i) := by
  -- reading changes nothing but the place of the thread
  have hholds : (Place.inside r (.count d f id)).Holds (calls i) _ := hplace ▸ h.places i
  have hdefine : s.defineClaims i = none := congrArg Place.defineClaim hplace
  have hfile : s.fileClaims i = some ((r.versionId, r.groupId, d), some id) :=
    congrArg Place.fileClaim hplace
  rw [Shared.step_inside hplace]
  exact h.look hholds (h.defines.stay hdefine) (h.files.stay hfile)

/-- The `UPDATE` of a counter. -/
theorem Uploading.update {d f id n : ℤ} (hplace : s.places i = .inside r (.update d f id n)) :
    Uploading start calls (s.step my i) := by
  have hholds : (Place.inside r (.update d f id n)).Holds (calls i) _ := hplace ▸ h.places i
  have hdefine : s.defineClaims i = none := congrArg Place.defineClaim hplace
  have hfile : s.fileClaims i = some ((r.versionId, r.groupId, d), some id) :=
    congrArg Place.fileClaim hplace
  -- recounted tables do not see what a counter says
  have htables : ((Sql.updateAmountOfChildren n f).exec my s.world.db).2.recounted
      = s.world.db.recounted := recounted_updateAmount n f
  have hlinks := links_updateAmount my s.world.db n f
  rw [Shared.step_inside hplace]
  refine h.move rfl rfl ?_ ?_ ?_ (h.defines.stay hdefine) ?_
  · exact htables.symm ▸ h.progress
  · exact htables.symm ▸ Database.Grows.refl _
  · exact htables.symm ▸ hholds
  · exact hlinks.symm ▸ h.files.stay hfile

/-- The insertion of a file into the cache. -/
theorem Uploading.putFile {d f id : ℤ} (hplace : s.places i = .inside r (.putFile d f id)) :
    Uploading start calls (s.step my i) := by
  obtain ⟨hwithin, hd, -, hrow⟩ : (Place.inside r (.putFile d f id)).Holds (calls i) _ :=
    hplace ▸ h.places i
  have hdefine : s.defineClaims i = none := congrArg Place.defineClaim hplace
  have hfile : s.fileClaims i = some ((r.versionId, r.groupId, d), some id) :=
    congrArg Place.fileClaim hplace
  -- the round is over, and with it the claim
  obtain ⟨hdefine', hfile'⟩ := claims_next r d id
  have hfiles := h.files.put hfile
  rw [← ModelCacheFilesVersion.lookup_add_eq_update, ← hfile'] at hfiles
  rw [Shared.step_inside hplace]
  exact h.move rfl rfl h.progress (Database.Grows.refl _)
    (holds_next h.progress.forest hwithin hd hrow)
    (h.defines.stay (hdefine.trans hdefine'.symm)) hfiles

/-- **One step** of a thread that does not clash with another one. -/
theorem Uploading.step (hfree : ∀ j, ¬ s.Clash i j) : Uploading start calls (s.step my i) := by
  cases hplace : s.places i with
  | done => rwa [Shared.step_done hplace]
  | inside r st =>
    cases st with
    | findDefine d f => exact h.findDefine my hplace hfree
    | insertDefine d f => exact h.insertDefine my hplace
    | putDefine d f => exact h.putDefine my hplace
    | findFile d f => exact h.findFile my hplace hfree
    | insertFile d f => exact h.insertFile my hplace
    | count d f id => exact h.count my hplace
    | update d f id n => exact h.update my hplace
    | putFile d f id => exact h.putFile my hplace

end Steps

end Uploading

end WebDiff
