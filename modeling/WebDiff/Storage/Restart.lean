import WebDiff.Storage.Footprint
import WebDiff.Storage.Tables

/-!
# Restarting the server

A restart replaces the caches by what `loadCache` reads from the tables. The text columns come back
as C strings, so the caches are in step again when no stored text has a NUL byte (`NulFree`), and
the tables stay that way while the requests have none either. With `Storage/Tables` it follows that
a server that is restarted between requests does what a server that runs through does, operation by
operation (`serve_restarts`).
-/

namespace WebDiff

open Program Table

/-! ### Rebuilding the caches -/

/-- No stored text has a NUL byte. -/
structure NulFree (db : Database) : Prop where
  versions : ∀ row ∈ db.versions, 0 ∉ row.name
  groups : ∀ row ∈ db.fileGroups, 0 ∉ row.name
  defineFiles : ∀ row ∈ db.defineFiles, 0 ∉ row.filepath

theorem NulFree.empty : NulFree Database.empty :=
  ⟨fun _ h => absurd h List.not_mem_nil, fun _ h => absurd h List.not_mem_nil,
    fun _ h => absurd h List.not_mem_nil⟩

/-- `loadFilesIds` reads the file rows into the map. -/
theorem lookup_loadFilesIds (my : MySql) (db : Database) (cache : ModelCacheFilesVersion) :
    (loadFilesIds my db cache).lookup
      = (my.scan db.links).foldl (fun (m : ℤ × ℤ × ℤ → Option ℤ) row =>
          Function.update m row.key (some row.id)) cache.lookup :=
  ModelCacheFilesVersion.lookup_foldl_add FileLink.versionId FileLink.fileGroupId
    FileLink.defineFileId FileLink.id _ _

section LoadCache

variable (my : MySql) {db : Database} (hk : Keyed db) (hn : NulFree db)

include hn in
theorem getApiVersionsAll_perm :
    (getApiVersionsAll my db).Perm (db.versions.map VersionRow.toModel) := by
  refine ((my.orderBy_perm _ _).map _).trans (List.Perm.of_eq (List.map_congr_left ?_))
  intro row hrow
  rw [cString_eq_self (hn.versions row hrow)]
  rfl

include hn in
theorem getGroupsAll_perm :
    (getGroupsAll my db).Perm (db.fileGroups.map FileGroupRow.toModel) := by
  refine ((my.orderBy_perm _ _).map _).trans (List.Perm.of_eq (List.map_congr_left ?_))
  intro row hrow
  rw [cString_eq_self (hn.groups row hrow)]
  rfl

include hk hn

theorem getDefineFilesCache_eq_some_iff (path : Bytes) (id : ℤ) :
    getDefineFilesCache my db (fun _ => none) path = some id ↔
      ∃ row ∈ db.defineFiles, row.filepath = path ∧ row.id = id := by
  have hperm := my.scan_perm db.defineFiles
  have hkey : ∀ row ∈ my.scan db.defineFiles, cString row.filepath = row.filepath := fun row hrow =>
    cString_eq_self (hn.defineFiles row (hperm.mem_iff.mp hrow))
  have hnodup : ((my.scan db.defineFiles).map fun row => cString row.filepath).Nodup := by
    rw [List.map_congr_left hkey]
    exact (hperm.map _).nodup_iff.mpr hk.filepaths
  unfold getDefineFilesCache
  rw [foldl_update_eq_some_iff hnodup]
  simp only [reduceCtorEq, and_false, or_false, hperm.mem_iff]
  exact exists_congr fun row => and_congr_right fun hrow => by
    rw [hkey row (hperm.mem_iff.mpr hrow)]

omit hn in
theorem loadFilesIds_eq_some_iff (key : ℤ × ℤ × ℤ) (id : ℤ) :
    (loadFilesIds my db ModelCacheFilesVersion.new).lookup key = some id ↔
      ∃ row ∈ db.links, row.key = key ∧ row.id = id := by
  have hperm := my.scan_perm db.links
  have hnodup : ((my.scan db.links).map FileLink.key).Nodup :=
    (hperm.map _).nodup_iff.mpr hk.fileKeys
  rw [lookup_loadFilesIds, foldl_update_eq_some_iff hnodup]
  simp only [ModelCacheFilesVersion.lookup_new, reduceCtorEq, and_false, or_false, hperm.mem_iff]

/-- **`loadCache` puts the caches in step** with tables whose texts have no NUL byte. -/
theorem synced_restart (caches : Caches) : Synced (World.restart my ⟨db, caches⟩) where
  keyed := hk
  cached :=
    { versions := getApiVersionsAll_perm my hn
      groups := getGroupsAll_perm my hn
      defineFileIds := getDefineFilesCache_eq_some_iff my hk hn
      fileIds := loadFilesIds_eq_some_iff my hk }

end LoadCache

/-! ### The requests keep the tables free of NUL bytes -/

/-- The strings of a request the storage uses. -/
structure AddRequest.NulFree (req : AddRequest) : Prop where
  version : 0 ∉ req.version
  group : 0 ∉ req.group
  files : ∀ file ∈ req.files, 0 ∉ file.filePath

theorem AddRequest.NulFree.not_hasByte {req : AddRequest} (h : req.NulFree) : ¬ req.HasByte 0 := by
  rintro (h0 | ⟨file, hfile, h0⟩)
  · exact absurd h0 (by decide)
  · exact h.files file hfile h0

theorem nulFree_step {my : MySql} {req : AddRequest} (hreq : req.NulFree) (o : Op) (db : Database)
    (ho : o.OfUpload req) (h : NulFree db) : NulFree (Database.step my o db).2 := by
  cases o with
  | sql s =>
    cases s with
    | insertVersion name =>
      obtain rfl : name = req.version := ho
      exact { h with versions := by simpa [Database.step, Sql.exec, or_imp, forall_and] using
        ⟨h.versions, hreq.version⟩ }
    | insertGroup name =>
      obtain rfl : name = req.group := ho
      exact { h with groups := by simpa [Database.step, Sql.exec, or_imp, forall_and] using
        ⟨h.groups, hreq.group⟩ }
    -- a path is made of the bytes of the request
    | insertDefineFile filepath filename parentId =>
      have hpath : 0 ∉ filepath := fun h0 => hreq.not_hasByte (ho 0 h0)
      exact { h with defineFiles := by simpa [Database.step, Sql.exec, or_imp, forall_and] using
        ⟨h.defineFiles, hpath⟩ }
    | _ => exact { h with }
  | _ => exact h

/-! ### A server that restarts between requests -/

/-- What a request leaves behind besides the tables: the version and the group it found or created,
and every lookup and statement of its find-or-create calls with the id it returned. -/
structure Served where
  found : ModelVersion × ModelGroup
  operations : List (Σ o : Op, o.Res)

/-- A request under an interpretation of the operations. -/
def Served.of {S : Type} (I : Interp Op Op.Res S) (req : AddRequest) (s : S) : Served × S :=
  (⟨(run I (upload req) s).1, trace I (upload req) s⟩, (run I (upload req) s).2)

/-- The requests one after another. The flag of a request says that the process is restarted in
front of it. -/
def serve (my : MySql) : List (Bool × AddRequest) → World → List Served × World
  | [], w => ([], w)
  | (restarts, req) :: rest, w =>
    let (served, w') := Served.of (World.step my) req (if restarts then w.restart my else w)
    let (others, w'') := serve my rest w'
    (served :: others, w'')

/-- The requests on the tables alone. -/
def serveTables (my : MySql) : List AddRequest → Database → List Served × Database
  | [], db => ([], db)
  | req :: rest, db =>
    let (served, db') := Served.of (Database.step my) req db
    let (others, db'') := serveTables my rest db'
    (served :: others, db'')

/-- The caches are in step, and stay so over a restart. -/
structure Restartable (w : World) : Prop where
  synced : Synced w
  nulFree : NulFree w.db

theorem Restartable.restart (my : MySql) {w : World} (h : Restartable w) :
    Restartable (w.restart my) :=
  ⟨synced_restart my h.synced.keyed h.nulFree w.caches, h.nulFree⟩

/-- One request on a server whose caches are in step is the request on the tables. -/
theorem served_eq (my : MySql) {w : World} (h : Restartable w) {req : AddRequest}
    (hreq : req.NulFree) :
    (Served.of (World.step my) req w).1 = (Served.of (Database.step my) req w.db).1 ∧
      (Served.of (World.step my) req w).2.db = (Served.of (Database.step my) req w.db).2 ∧
      Restartable (Served.of (World.step my) req w).2 := by
  have hagree : Agrees my (upload req) w := agree_upload h.synced req
  have hdb : (run (World.step my) (upload req) w).2.db
      = (run (Database.step my) (upload req) w.db).2 := hagree.related.db_eq
  have hnul : NulFree (run (Database.step my) (upload req) w.db).2 :=
    run_of_uses (Database.step my) (nulFree_step hreq) (uses_upload req) h.nulFree
  refine ⟨?_, hdb, hagree.related.synced, hdb ▸ hnul⟩
  unfold Served.of
  rw [hagree.result, hagree.trace]

/-- Whatever the restarts, the server does what the requests do on the tables. -/
theorem serve_eq_serveTables (my : MySql) (requests : List (Bool × AddRequest)) {w : World}
    (h : Restartable w) (hreq : ∀ r ∈ requests, r.2.NulFree) :
    (serve my requests w).1 = (serveTables my (requests.map Prod.snd) w.db).1 ∧
      (serve my requests w).2.db = (serveTables my (requests.map Prod.snd) w.db).2 := by
  induction requests generalizing w with
  | nil => exact ⟨rfl, rfl⟩
  | cons r rest ih =>
    obtain ⟨restarts, req⟩ := r
    have hrest : ∀ r ∈ rest, r.2.NulFree := fun r hr => hreq r (List.mem_cons_of_mem _ hr)
    -- the world the request is served in, on the same tables
    obtain ⟨w₁, hw₁, hdb₁, h₁⟩ : ∃ w₁, (if restarts then w.restart my else w) = w₁ ∧
        w₁.db = w.db ∧ Restartable w₁ := by
      cases restarts with
      | true => exact ⟨_, rfl, rfl, h.restart my⟩
      | false => exact ⟨_, rfl, rfl, h⟩
    obtain ⟨hserved, hdb, h'⟩ := served_eq my h₁ (hreq _ List.mem_cons_self)
    obtain ⟨hothers, hfinal⟩ := ih h' hrest
    rw [hdb₁] at hserved hdb
    rw [hdb] at hothers hfinal
    simp only [serve, serveTables, List.map_cons, hw₁]
    exact ⟨by rw [hserved, hothers], hfinal⟩

/-- **The caches are invisible.** A server that is restarted at any points between the requests
leaves the same tables, row by row and id by id, as one that runs through, and every find-or-create
call returns the same in both. -/
theorem serve_restarts (my : MySql) (requests : List (Bool × AddRequest))
    (h : ∀ r ∈ requests, r.2.NulFree) :
    (serve my requests World.empty).2.db
        = (serve my (requests.map fun r => (false, r.2)) World.empty).2.db ∧
      (serve my requests World.empty).1
        = (serve my (requests.map fun r => (false, r.2)) World.empty).1 := by
  have hstart : Restartable World.empty := ⟨Synced.empty, NulFree.empty⟩
  have hthrough : ∀ r ∈ requests.map (fun r => (false, r.2)), r.2.NulFree := by
    intro r hr
    obtain ⟨r', hr', rfl⟩ := List.mem_map.mp hr
    exact h r' hr'
  obtain ⟨hserved, hdb⟩ := serve_eq_serveTables my requests hstart h
  obtain ⟨hserved', hdb'⟩ := serve_eq_serveTables my _ hstart hthrough
  rw [List.map_map] at hserved' hdb'
  exact ⟨hdb.trans hdb'.symm, hserved.trans hserved'.symm⟩

/-- Two uploads that share a directory, with a restart between them. -/
def sharedDirectory : List (Bool × AddRequest) :=
  [(false, ⟨lit "1.0", lit "core", [fileInfo (lit "lib/a")]⟩),
    (true, ⟨lit "1.1", lit "core", [fileInfo (lit "lib/b")]⟩)]

theorem serve_restarts_sharedDirectory :
    (serve .innodb sharedDirectory World.empty).2.db
        = (serve .innodb (sharedDirectory.map fun r => (false, r.2)) World.empty).2.db ∧
      (serve .innodb sharedDirectory World.empty).1
        = (serve .innodb (sharedDirectory.map fun r => (false, r.2)) World.empty).1 := by
  refine serve_restarts .innodb sharedDirectory fun r hr => ?_
  simp only [sharedDirectory, List.mem_cons, List.not_mem_nil, or_false] at hr
  rcases hr with rfl | rfl
  all_goals exact ⟨by decide, by decide, by decide⟩

end WebDiff
